import Xv6.CacheOver
import Xv6.Log

/-!
# The invariant of the log

What the log does is seen from a history variable (`LogHist`) : the writes that the operations have
logged since the last commit (`pending`), the transaction whose header has been written and whose commit() has
not returned (`last`), the transactions before it (`done`), the operations under way, and the pins.

The invariant (`LogInv`) has three parts.

* The disk (`DiskInv`) holds the transactions of `done`, and of `last` as many writes as have been
  installed; while not all have been, the header and the log blocks hold `last`. A crash keeps it.
* The processes : at most one is in commit() or in recover_from_log(), `log.committing` is set
  while one is in commit(), and no operation is under way then.
* The process in commit() or recover_from_log() has the buffers its place in the code says
  (`OpPc.locals`), of the blocks it says (`OpPc.roles`), and has come so far (`BusyInv`).
-/

namespace Xv6

/-! ## The header block -/

theorem word_setWord_self (d : Block) {i : ℕ} (x : ℕ) (hi : 4 * i + 4 ≤ BSIZE) :
    word (setWord d i x) i = x % 2 ^ 32 :=
  Bytes.getLE_setLE d x hi

theorem word_setWord_of_ne (d : Block) {i j : ℕ} (x : ℕ) (h : j ≠ i) :
    word (setWord d i x) j = word d j :=
  Bytes.getLE_setLE_of_disjoint d x (by omega)

theorem word_storeBlocks_of_le (d : Block) (lh : List ℕ) {i j : ℕ} (h : j ≤ i) :
    word (storeBlocks d i lh) j = word d j := by
  induction lh generalizing d i with
  | nil => rfl
  | cons b lh ih =>
    rw [storeBlocks, ih _ (by omega), word_setWord_of_ne _ _ (by omega)]

theorem word_storeBlocks (d : Block) {lh : List ℕ} {i j : ℕ} (hj : j < lh.length)
    (hlen : 4 * (i + lh.length) + 4 ≤ BSIZE) (hlt : ∀ b ∈ lh, b < 2 ^ 32) :
    word (storeBlocks d i lh) (i + j + 1) = lh[j] := by
  induction lh generalizing d i j with
  | nil => simp at hj
  | cons b lh ih =>
    rw [List.length_cons] at hlen
    rw [storeBlocks]
    cases j with
    | zero =>
      rw [word_storeBlocks_of_le _ _ (by omega), Nat.add_zero, word_setWord_self _ _ (by omega),
        Nat.mod_eq_of_lt (hlt b List.mem_cons_self)]
      rfl
    | succ j =>
      have hj' : j < lh.length := by simpa using hj
      rw [show i + (j + 1) + 1 = i + 1 + j + 1 by omega,
        ih _ hj' (by omega) fun b' hb' => hlt b' (List.mem_cons_of_mem _ hb')]
      rfl

/-- read_head reads what write_head wrote. -/
theorem readHead_fillHead (d : Block) {lh : List ℕ} (hlen : lh.length ≤ LOGBLOCKS)
    (hlt : ∀ b ∈ lh, b < 2 ^ 32) : readHead (fillHead d lh) = lh := by
  simp only [LOGBLOCKS, MAXOPBLOCKS] at hlen
  have hn : word (fillHead d lh) 0 = lh.length := by
    rw [fillHead, word_storeBlocks_of_le _ _ (Nat.le_refl 0), word_setWord_self _ _ (by decide),
      Nat.mod_eq_of_lt (by omega)]
  rw [readHead, hn, if_pos (by omega)]
  refine List.ext_getElem (by simp) fun j h₁ h₂ => ?_
  have hj := word_storeBlocks (setWord d 0 lh.length) (i := 0) h₂ (by simp only [BSIZE]; omega) hlt
  rwa [List.getElem_map, List.getElem_range, fillHead, ← Nat.zero_add (j + 1), ← Nat.add_assoc]

/-! ## The history -/

/-- A transaction : block numbers and contents. -/
abbrev Tx : Type := List (ℕ × Block)

/-- What has happened. -/
structure LogHist (P : Type*) where
  /-- The calls of bpin for a buffer that no bunpin has undone. -/
  pins : BufId → ℕ
  /-- The operations under way. -/
  active : List P
  /-- The blocks that the operation of a process has logged, each once. -/
  op : P → List ℕ
  /-- The transactions whose commit() has returned or that recovery has installed. -/
  done : List Tx
  /-- The transaction whose header has been written and that is not in `done`. -/
  last : Option Tx
  /-- The writes logged since. -/
  pending : Tx

namespace LogHist

variable {P : Type*} [DecidableEq P]

def start : LogHist P :=
  ⟨fun _ => 0, [], fun _ => [], [], none, []⟩

/-- The blocks of an operation that logs `b`. -/
def logged (h : LogHist P) (p : P) (b : ℕ) : List ℕ :=
  if b ∈ h.op p then h.op p else b :: h.op p

/-- The history after the action `a` in state `s`. -/
def upd (h : LogHist P) (s : LogSys P) : LogAct P → LogHist P
  | .crash => { h with pins := fun _ => 0, active := [], op := fun _ => [], pending := [] }
  | .beginOp p =>
    if s.committing ∨ s.lh.length + (s.outstanding + 1) * MAXOPBLOCKS > LOGBLOCKS then h
    else { h with active := p :: h.active, op := Function.update h.op p [] }
  | .logWrite p i d =>
    match (s.bufs.buf i).blockno with
    | some b =>
      if s.lh.length ≥ LOGBLOCKS ∨ s.outstanding < 1 then h
      else { h with
        op := Function.update h.op p (h.logged p b)
        pending := record h.pending b d
        pins := if b ∈ s.lh then h.pins else Function.update h.pins i (h.pins i + 1) }
    | none => h
  | .endOp p => { h with active := h.active.erase p }
  | .run p =>
    match s.pc p with
    | .copy _ _ (.unpin _ i) => { h with pins := Function.update h.pins i (h.pins i - 1) }
    | .head .commit (.io i) =>
      if s.bufs.holdingsleep p i then { h with last := some h.pending, pending := [] } else h
    | .head (.clear _) (.put _) => { h with done := h.done ++ h.last.toList, last := none }
    | _ => h
  | _ => h

end LogHist

/-- The machine with its history. -/
def logObserved (P : Type*) [DecidableEq P] (start : ℕ) (d₀ : ℕ → Block) :
    Machine (LogSys P × LogHist P) (LogAct P) :=
  (logMachine P start d₀).observe .start fun h s a => h.upd s a

section

variable {P : Type*} [DecidableEq P]

/-- A log_write makes its operation log no more than MAXOPBLOCKS distinct blocks. -/
def within (x : LogSys P × LogHist P) : LogAct P → Bool
  | .logWrite p i _ => (x.1.bufs.buf i).blockno.all fun b => (x.2.logged p b).length ≤ MAXOPBLOCKS
  | _ => true

/-- A log_write of a block that is in the log already finds the log not full. -/
def roomy (s : LogSys P) : LogAct P → Bool
  | .logWrite _ i _ => (s.bufs.buf i).blockno.all fun b => b ∈ s.lh → s.lh.length < LOGBLOCKS
  | _ => true

end

/-- The disk `d₀` after the transactions `txs`. -/
def replay (d₀ : ℕ → Block) (txs : List Tx) : ℕ → Block :=
  overlay d₀ txs.flatten

theorem replay_append (d₀ : ℕ → Block) (txs txs' : List Tx) :
    replay d₀ (txs ++ txs') = overlay (replay d₀ txs) txs'.flatten := by
  rw [replay, List.flatten_append, overlay_append, replay]

theorem replay_concat (d₀ : ℕ → Block) (txs : List Tx) (t : Tx) :
    replay d₀ (txs ++ [t]) = overlay (replay d₀ txs) t := by
  rw [replay_append]
  simp

/-! ## The disk -/

section Disk

variable (start : ℕ) (d₀ disk : ℕ → Block)

/-- The block numbers in a header. -/
structure WfHead (lh : List ℕ) : Prop where
  nodup : lh.Nodup
  length : lh.length ≤ LOGBLOCKS
  home : ∀ b ∈ lh, LogSys.home start b
  lt : ∀ b ∈ lh, b < 2 ^ 32

/-- The log is empty, and the disk holds the transactions `txs`. -/
structure Clean (txs : List Tx) : Prop where
  head : readHead (disk start) = []
  home : ∀ b, LogSys.home start b → disk b = replay d₀ txs b

/-- The log holds the transaction `t`, of which the first `k` writes have been installed over the
transactions `txs`. -/
structure Sealed (txs : List Tx) (t : Tx) (k : ℕ) : Prop where
  head : readHead (disk start) = places t
  logged : ∀ j (hj : j < t.length), disk (start + j + 1) = t[j].2
  home : ∀ b, LogSys.home start b → disk b = overlay (replay d₀ txs) (t.take k) b

/-- The disk, at any time. -/
def DiskInv (txs : List Tx) : Option Tx → Prop
  | none => Clean start d₀ disk txs
  | some t => WfHead start (places t) ∧
    ((∃ k, Sealed start d₀ disk txs t k) ∨ Clean start d₀ disk (txs ++ [t]))

end Disk

/-! ## The process in commit() or recover_from_log() -/

/-- In commit() or recover_from_log(). -/
def OpPc.busy : OpPc → Bool
  | .copy _ _ _ | .head _ _ | .finish => true
  | _ => false

theorem LogSys.busy_of {P : Type*} {s : LogSys P} {p : P} {pc : OpPc} (hpc : s.pc p = pc) (h : pc.busy = true) :
    (s.pc p).busy = true := by
  rw [hpc, h]

/-- In recover_from_log(). -/
def OpPc.recovers : OpPc → Bool
  | .copy (.install r) _ _ | .head (.clear r) _ => r
  | .head .read _ => true
  | _ => false

/-- The references of `p` in the body of the loop. -/
def CopyPc.locals {P : Type*} (p : P) : CopyPc → List (Ref P)
  | .getLog => []
  | .lockLog l => [⟨p, l, .wants⟩]
  | .getHome l => [⟨p, l, .holds⟩]
  | .lockHome l h => [⟨p, h, .wants⟩, ⟨p, l, .holds⟩]
  | .write l h | .unpin l h => [⟨p, h, .holds⟩, ⟨p, l, .holds⟩]
  | .unlock x y => [⟨p, x, .holds⟩, ⟨p, y, .holds⟩]
  | .put x y => [⟨p, x, .released⟩, ⟨p, y, .holds⟩]
  | .unlockLast y => [⟨p, y, .holds⟩]
  | .putLast y => [⟨p, y, .released⟩]

def HeadPc.locals {P : Type*} (p : P) : HeadPc → List (Ref P)
  | .get => []
  | .lock i => [⟨p, i, .wants⟩]
  | .io i | .unlock i => [⟨p, i, .holds⟩]
  | .put i => [⟨p, i, .released⟩]

/-- The references of `p` in commit() or recover_from_log(). -/
def OpPc.locals {P : Type*} (p : P) : OpPc → List (Ref P)
  | .copy _ _ pc => pc.locals p
  | .head _ pc => pc.locals p
  | _ => []

/-- The blocks of the buffers in the body of the loop. -/
def CopyPc.roles (log home : ℕ) : CopyPc → List (BufId × ℕ)
  | .lockLog l | .getHome l => [(l, log)]
  | .lockHome l h | .write l h | .unpin l h => [(l, log), (h, home)]
  | _ => []

def HeadPc.roles (start : ℕ) : HeadPc → List (BufId × ℕ)
  | .lock i | .io i => [(i, start)]
  | _ => []

/-- The blocks of the buffers of a process in commit() or recover_from_log(). -/
def OpPc.roles (start : ℕ) (lh : List ℕ) : OpPc → List (BufId × ℕ)
  | .copy _ tail pc => pc.roles (start + tail + 1) (lh.getD tail 0)
  | .head _ pc => pc.roles start
  | _ => []

/-- The bwrite of the round has been made. -/
def CopyPc.written : CopyPc → ℕ
  | .unpin _ _ | .unlock _ _ | .put _ _ | .unlockLast _ | .putLast _ => 1
  | _ => 0

/-- The bunpin of the round has been made. -/
def CopyPc.unpinned : CopyPc → ℕ
  | .unlock _ _ | .put _ _ | .unlockLast _ | .putLast _ => 1
  | _ => 0

/-- Before the bunpin of the round. -/
def CopyPc.unpins : CopyPc → Bool
  | .unpin _ _ => true
  | _ => false

/-- The header has been read or written. -/
def HeadPc.done : HeadPc → Bool
  | .unlock _ | .put _ => true
  | _ => false

section

variable {P : Type*} [DecidableEq P] (start : ℕ) (d₀ : ℕ → Block) (s : LogSys P) (h : LogHist P)

/-- The operations log their writes; commit() has copied the first `k` into the log. -/
structure Gathering (k : ℕ) : Prop where
  last : h.last = none
  clean : Clean start d₀ s.disk h.done
  places : places h.pending = s.lh
  cache : s.bufs.Over s.disk h.pins s.lh h.pending
  logged : ∀ j (hj : j < h.pending.length), j < k → s.disk (start + j + 1) = h.pending[j].2

/-- The transaction `t` is in the log, its first `k` writes are on the disk, and the blocks up to `u` have
been unpinned. -/
structure Installing (t : Tx) (k u w : ℕ) : Prop where
  last : h.last = some t
  placed : Sealed start d₀ s.disk h.done t k
  places : places t = s.lh
  pending : h.pending = []
  cache : s.bufs.Over s.disk h.pins (s.lh.drop u) (t.drop w)

/-- Nothing is logged in memory. -/
structure Empty : Prop where
  pending : h.pending = []
  cache : s.bufs.Over s.disk h.pins [] []

/-- How far a process is in commit() or recover_from_log(). -/
def BusyInv : OpPc → Prop
  | .copy .writeLog tail pc => tail < s.lh.length ∧ pc.unpins = false ∧
    Gathering start d₀ s h (tail + pc.written)
  | .head .commit pc =>
    if pc.done then ∃ t, Installing start d₀ s h t 0 0 0 else Gathering start d₀ s h s.lh.length
  | .copy (.install false) tail pc => tail < s.lh.length ∧
    ∃ t, Installing start d₀ s h t (tail + pc.written) (tail + pc.unpinned) (tail + pc.written)
  | .copy (.install true) tail pc => tail < s.lh.length ∧ pc.unpins = false ∧
    ∃ t k, tail + pc.written ≤ k ∧ Installing start d₀ s h t k s.lh.length s.lh.length
  | .head .read pc => Empty s h ∧ (pc.done = true → s.lh = readHead (s.disk start))
  | .head (.clear _) pc => Empty s h ∧ s.lh = [] ∧
    (∀ b, LogSys.home start b → s.disk b = replay d₀ (h.done ++ h.last.toList) b) ∧
    (pc.done = true → readHead (s.disk start) = [])
  | .finish => s.lh = [] ∧ Gathering start d₀ s h 0
  | _ => True

/-- The references of `p` are those of `refs`. -/
def Bufs.Owns (c : Bufs P) (p : P) (refs : List (Ref P)) : Prop :=
  ∀ r, r.proc = p → c.refs.count r = refs.count r

/-- The buffers are of the blocks they should be. -/
def Bufs.Blocks (c : Bufs P) (roles : List (BufId × ℕ)) : Prop :=
  ∀ x ∈ roles, (c.buf x.1).blockno = some x.2

/-- The invariant. -/
structure LogInv : Prop where
  disk : DiskInv start d₀ s.disk h.done h.last
  bufs : s.bufs.Inv h.pins
  lh : WfHead start s.lh
  nodup : h.active.Nodup
  mem : ∀ p, p ∈ h.active ↔ s.pc p = .inOp
  outstanding : s.outstanding = h.active.length
  one : ∀ p q, (s.pc p).busy = true → (s.pc q).busy = true → p = q
  recovers : ∀ p, (s.pc p).recovers = true → s.phase = .booting
  commits : ∀ p, (s.pc p).busy = true → (s.pc p).recovers = false → s.committing = true
  committing : s.committing = true → s.phase = .up ∧ h.active = []
  up : s.phase ≠ .up → h.active = []
  off : s.phase = .off → (∀ p, (s.pc p).busy = false) ∧ s.lh = [] ∧ s.bufs.refs = [] ∧ Empty s h
  someone : s.phase = .booting ∨ s.committing = true → ∃ p, (s.pc p).busy = true
  owns : ∀ p, (s.pc p).busy = true → s.bufs.Owns p ((s.pc p).locals p)
  blocks : ∀ p, (s.pc p).busy = true → s.bufs.Blocks ((s.pc p).roles start s.lh)
  busy : ∀ p, (s.pc p).busy = true → BusyInv start d₀ s h (s.pc p)
  idle : s.phase = .up → s.committing = false → Gathering start d₀ s h 0
  panic : s.panic = none ∨ s.panic = some .noBuffers ∨ s.panic = some .tooBig

end

end Xv6
