import Mathlib.Logic.Function.Basic
import Xv6.Machine
import Xv6.Ring

/-!
# The virtio disk driver

kernel/virtio_disk.c and the device it talks to. The driver and the device share eight descriptors and two
rings : `virtio_disk_rw` allocates three descriptors, links them to a chain, puts its head in the `avail` ring
and sleeps; the device takes heads out of the `avail` ring, completes their chains in any order, and puts
the heads in the `used` ring; `virtio_disk_intr` goes over the `used` ring and wakes the owners, which
then free their chains.

`vdisk_lock` makes the sections of the driver exclude one another, and nothing stops the device from running
between any two of their steps. The places where the driver and the device see each other are steps of their own
: the increment of `avail->idx`, and every read of `used->idx`. A buffer is locked by its caller for the whole of
`virtio_disk_rw`. `sleep` gives up `vdisk_lock` and goes to sleep at once. The processes, the CPUs that
take interrupts and the buffers are arbitrary types; the data that is moved is left out.
-/

namespace Xv6

/-- The number of descriptors, and of the entries of each ring. -/
abbrev NUM : ℕ := 8

abbrev VRING_DESC_F_NEXT : BitVec 16 := 1
abbrev VRING_DESC_F_WRITE : BitVec 16 := 2
abbrev VIRTIO_BLK_T_IN : BitVec 32 := 0
abbrev VIRTIO_BLK_T_OUT : BitVec 32 := 1

/-- What the address of a descriptor points to. -/
inductive DmaAddr (B : Type)
  | null
  /-- `&disk.ops[i]` -/
  | op (i : ℕ)
  /-- `b->data` -/
  | data (b : B)
  /-- `&disk.info[i].status` -/
  | status (i : ℕ)

/-- `struct virtq_desc`. -/
structure VirtqDesc (B : Type) where
  addr : DmaAddr B
  len : ℕ
  flags : BitVec 16
  next : ℕ

/-- `struct virtio_blk_req`. -/
structure VirtioBlkReq where
  type : BitVec 32
  sector : ℕ

/-- `struct disk`, with the rings. -/
structure VirtioDisk (B : Type) where
  desc : ℕ → VirtqDesc B
  availIdx : BitVec 16
  availRing : Fin NUM → ℕ
  /-- `used->idx`, which the device increments. -/
  usedRingIdx : BitVec 16
  usedRing : Fin NUM → ℕ
  free : ℕ → Bool
  /-- `disk.used_idx` : how far the driver has looked. -/
  usedIdx : BitVec 16
  infoB : ℕ → Option B
  infoStatus : ℕ → BitVec 8
  ops : ℕ → VirtioBlkReq

/-- The calls of `panic`, and the use of an `info[id].b` that is NULL. -/
inductive DiskPanic
  | freeDesc1
  | freeDesc2
  | intrStatus
  | nullBuf

/-- The three descriptors of a request, its head first. -/
structure Idx where
  i0 : ℕ
  i1 : ℕ
  i2 : ℕ

def Idx.toList (x : Idx) : List ℕ :=
  [x.i0, x.i1, x.i2]

namespace VirtioDisk

variable {B : Type} (d : VirtioDisk B)

/-- `alloc_desc`. -/
def allocDesc : Option (ℕ × VirtioDisk B) :=
  ((List.range NUM).find? fun i => d.free i).map fun i =>
    (i, { d with free := Function.update d.free i false })

/-- `free_desc`, without its `wakeup(&disk.free[0])`. -/
def freeDesc (i : ℕ) : Except DiskPanic (VirtioDisk B) :=
  if i ≥ NUM then .error .freeDesc1
  else if d.free i then .error .freeDesc2
  else .ok { d with
    desc := Function.update d.desc i ⟨.null, 0, 0, 0⟩
    free := Function.update d.free i true }

/-- `free_chain`. Every turn of its loop frees a descriptor or panics, so it has no more than `NUM`. -/
def freeChain (d : VirtioDisk B) : ℕ → ℕ → Except DiskPanic (VirtioDisk B)
  | 0, _ => .error .freeDesc2
  | fuel + 1, i =>
    let flag := (d.desc i).flags
    let nxt := (d.desc i).next
    match d.freeDesc i with
    | .error e => .error e
    | .ok d => if flag &&& VRING_DESC_F_NEXT ≠ 0 then freeChain d fuel nxt else .ok d

/-- `alloc3_desc`; says in addition whether `free_desc` was called, which wakes the processes that wait for
descriptors. -/
def alloc3Desc : Except DiskPanic (Option Idx × VirtioDisk B × Bool) :=
  match d.allocDesc with
  | none => .ok (none, d, false)
  | some (i0, d) =>
    match d.allocDesc with
    | none => do
      let d ← d.freeDesc i0
      return (none, d, true)
    | some (i1, d) =>
      match d.allocDesc with
      | none => do
        let d ← d.freeDesc i0
        let d ← d.freeDesc i1
        return (none, d, true)
      | some (i2, d) => return (some ⟨i0, i1, i2⟩, d, false)

/-- `virtio_disk_rw` formats its three descriptors and stores the head into the `avail` ring. -/
def format (b : B) (sector : ℕ) (write : Bool) (x : Idx) : VirtioDisk B :=
  { d with
    ops := Function.update d.ops x.i0 ⟨if write then VIRTIO_BLK_T_OUT else VIRTIO_BLK_T_IN, sector⟩
    desc := Function.update (Function.update (Function.update d.desc
      x.i0 ⟨.op x.i0, 16, VRING_DESC_F_NEXT, x.i1⟩)
      x.i1 ⟨.data b, 1024, (if write then 0 else VRING_DESC_F_WRITE) ||| VRING_DESC_F_NEXT, x.i2⟩)
      x.i2 ⟨.status x.i0, 1, VRING_DESC_F_WRITE, 0⟩
    infoStatus := Function.update d.infoStatus x.i0 0xff
    infoB := Function.update d.infoB x.i0 (some b)
    availRing := Function.update d.availRing (Ring.cell NUM d.availIdx) x.i0 }

/-- The address in the last descriptor of the chain at `i`, as the device finds it. -/
def lastAddr : ℕ → ℕ → DmaAddr B
  | 0, i => (d.desc i).addr
  | fuel + 1, i =>
    if (d.desc i).flags &&& VRING_DESC_F_NEXT ≠ 0 then lastAddr fuel (d.desc i).next
    else (d.desc i).addr

/-- The device has completed the chain at `i`, with status 0. -/
def complete (i : ℕ) : VirtioDisk B :=
  { d with
    infoStatus := match d.lastAddr NUM i with
      | .status j => Function.update d.infoStatus j 0
      | _ => d.infoStatus
    usedRing := Function.update d.usedRing (Ring.cell NUM d.usedRingIdx) i
    usedRingIdx := d.usedRingIdx + 1 }

end VirtioDisk

/-- Where a process is in `virtio_disk_rw`. -/
inductive RwPc (B : Type)
  | out
  /-- Before `acquire(&disk.vdisk_lock)`. -/
  | lock (b : B) (write : Bool)
  /-- Before `alloc3_desc`. -/
  | alloc (b : B) (write : Bool)
  /-- In `sleep(&disk.free[0], &disk.vdisk_lock)`. -/
  | allocSleep (b : B) (write : Bool)
  | format (b : B) (write : Bool) (x : Idx)
  /-- Before `disk.avail->idx += 1`. -/
  | post (b : B) (x : Idx)
  /-- At the test of `b->disk`. -/
  | wait (b : B) (x : Idx)
  /-- In `sleep(b, &disk.vdisk_lock)`. -/
  | waitSleep (b : B) (x : Idx)
  /-- Before `disk.info[idx[0]].b = 0` and `free_chain`. -/
  | reclaim (b : B) (x : Idx)

/-- Where a CPU is in `virtio_disk_intr`. -/
inductive IntrPc
  | out
  | lock
  /-- At the test of `used->idx`. -/
  | test
  /-- At an entry of the `used` ring. -/
  | entry

/-- The holder of `vdisk_lock`. -/
inductive DiskHolder (P C : Type)
  | rw (p : P)
  | intr (c : C)

/-- The channels of the driver. -/
inductive DiskChan (B : Type)
  | free
  | buf (b : B)
  deriving DecidableEq

/-- The driver, its callers, and the device. -/
structure VirtioSys (P C B : Type) where
  disk : VirtioDisk B
  /-- `b->disk` -/
  onDisk : B → Bool
  /-- `b->blockno` -/
  blockno : B → ℕ
  /-- The holder of `b->lock`. -/
  holder : B → Option P
  vdiskLock : Option (DiskHolder P C)
  rw : P → RwPc B
  /-- The channel a process is SLEEPING on. -/
  asleep : P → Option (DiskChan B)
  intr : C → IntrPc
  /-- How far the device has looked in the `avail` ring. -/
  devIdx : BitVec 16
  /-- The chains the device works on. -/
  devTaken : List ℕ
  panic : Option DiskPanic

inductive VirtioAct (P C B : Type)
  /-- The process locks or unlocks a buffer. -/
  | acquiresleep (p : P) (b : B)
  | releasesleep (p : P) (b : B)
  /-- It calls `virtio_disk_rw` on a buffer it has locked. -/
  | call (p : P) (b : B) (write : Bool)
  /-- The next step of its `virtio_disk_rw`. -/
  | run (p : P)
  /-- A sleeping process is made RUNNABLE by something else. -/
  | rouse (p : P)
  /-- The interrupt is taken, and the next step of its handler. -/
  | intr (c : C)
  | handle (c : C)
  /-- The device takes the next head out of the `avail` ring. -/
  | take
  /-- The device completes a chain. -/
  | complete (i : ℕ)

namespace VirtioSys

variable {P C B : Type} [DecidableEq P] [DecidableEq C] [DecidableEq B] (s : VirtioSys P C B)

def goto (p : P) (pc : RwPc B) : VirtioSys P C B :=
  { s with rw := Function.update s.rw p pc }

/-- `wakeup` -/
def wakeup (chan : DiskChan B) : VirtioSys P C B :=
  { s with asleep := fun p => if s.asleep p = some chan then none else s.asleep p }

/-- `sleep(chan, &disk.vdisk_lock)`, up to the switch. -/
def sleep (p : P) (chan : DiskChan B) (pc : RwPc B) : VirtioSys P C B :=
  { s with vdiskLock := none, asleep := Function.update s.asleep p (some chan) }.goto p pc

/-- `acquire(&disk.vdisk_lock)`, also the one at the end of a `sleep` that was woken. -/
def acquire (p : P) (pc : RwPc B) : Option (VirtioSys P C B) :=
  match s.vdiskLock, s.asleep p with
  | none, none => some ({ s with vdiskLock := some (.rw p) }.goto p pc)
  | _, _ => none

/-- The next step of the `virtio_disk_rw` of `p`. -/
def run (p : P) : Option (VirtioSys P C B) :=
  match s.rw p with
  | .out => none
  | .lock b write => s.acquire p (.alloc b write)
  | .alloc b write =>
    match s.disk.alloc3Desc with
    | .error e => some { s with panic := some e }
    | .ok (some x, d, _) => some ({ s with disk := d }.goto p (.format b write x))
    | .ok (none, d, wakes) =>
      let s := { s with disk := d }
      some ((if wakes then s.wakeup .free else s).sleep p .free (.allocSleep b write))
  | .allocSleep b write => s.acquire p (.alloc b write)
  | .format b write x =>
    some ({ s with
      disk := s.disk.format b (s.blockno b * 2) write x
      onDisk := Function.update s.onDisk b true }.goto p (.post b x))
  | .post b x => some ({ s with disk := { s.disk with availIdx := s.disk.availIdx + 1 } }.goto p (.wait b x))
  | .wait b x =>
    some (if s.onDisk b then s.sleep p (.buf b) (.waitSleep b x) else s.goto p (.reclaim b x))
  | .waitSleep b x => s.acquire p (.wait b x)
  | .reclaim _ x =>
    match { s.disk with infoB := Function.update s.disk.infoB x.i0 none }.freeChain NUM x.i0 with
    | .error e => some { s with panic := some e }
    | .ok d => some ({ s.wakeup .free with disk := d, vdiskLock := none }.goto p .out)

def setIntr (c : C) (pc : IntrPc) : VirtioSys P C B :=
  { s with intr := Function.update s.intr c pc }

/-- The next step of the `virtio_disk_intr` of CPU `c`. -/
def handle (c : C) : Option (VirtioSys P C B) :=
  match s.intr c with
  | .out => none
  | .lock => match s.vdiskLock with
    | none => some ({ s with vdiskLock := some (.intr c) }.setIntr c .test)
    | some _ => none
  | .test =>
    some (if s.disk.usedIdx ≠ s.disk.usedRingIdx then s.setIntr c .entry
      else { s with vdiskLock := none }.setIntr c .out)
  | .entry =>
    let id := s.disk.usedRing (Ring.cell NUM s.disk.usedIdx)
    if s.disk.infoStatus id ≠ 0 then some { s with panic := some .intrStatus }
    else match s.disk.infoB id with
    | none => some { s with panic := some .nullBuf }
    | some b => some ({ s.wakeup (.buf b) with
        onDisk := Function.update s.onDisk b false
        disk := { s.disk with usedIdx := s.disk.usedIdx + 1 } }.setIntr c .test)

/-- One step. -/
def step (a : VirtioAct P C B) : Option (VirtioSys P C B) :=
  if s.panic.isSome then none
  else match a with
  | .acquiresleep p b => match s.holder b with
    | none => some { s with holder := Function.update s.holder b (some p) }
    | some _ => none
  | .releasesleep p b => match s.rw p with
    | .out => if s.holder b = some p then some { s with holder := Function.update s.holder b none } else none
    | _ => none
  | .call p b write => match s.rw p with
    | .out => if s.holder b = some p then some (s.goto p (.lock b write)) else none
    | _ => none
  | .run p => s.run p
  | .rouse p => some { s with asleep := Function.update s.asleep p none }
  | .intr c => match s.intr c with
    | .out => some (s.setIntr c .lock)
    | _ => none
  | .handle c => s.handle c
  | .take =>
    if s.devIdx ≠ s.disk.availIdx then
      some { s with
        devIdx := s.devIdx + 1
        devTaken := s.devTaken ++ [s.disk.availRing (Ring.cell NUM s.devIdx)] }
    else none
  | .complete i =>
    if i ∈ s.devTaken then some { s with disk := s.disk.complete i, devTaken := s.devTaken.erase i }
    else none

/-- After `virtio_disk_init`, with no request yet. -/
structure Init : Prop where
  free : ∀ i < NUM, s.disk.free i = true
  availIdx : s.disk.availIdx = 0
  usedRingIdx : s.disk.usedRingIdx = 0
  usedIdx : s.disk.usedIdx = 0
  devIdx : s.devIdx = 0
  devTaken : s.devTaken = []
  rw : ∀ p, s.rw p = .out
  asleep : ∀ p, s.asleep p = none
  intr : ∀ c, s.intr c = .out
  vdiskLock : s.vdiskLock = none
  panic : s.panic = none

end VirtioSys

/-- What has been put into the rings and taken out of them, in order; whose request the head of a chain belongs
to; and whether the device has completed it. -/
structure VirtioHist (P : Type) where
  posted : List ℕ
  taken : List ℕ
  completed : List ℕ
  processed : List ℕ
  owner : ℕ → Option P
  done : P → Bool

namespace VirtioHist

variable {P C B : Type} [DecidableEq P]

def start : VirtioHist P :=
  ⟨[], [], [], [], fun _ => none, fun _ => false⟩

/-- The history after the action `a`. -/
def next (h : VirtioHist P) (s : VirtioSys P C B) : VirtioAct P C B → VirtioHist P
  | .run p => match s.rw p with
    | .post _ x =>
      { h with
        posted := h.posted ++ [x.i0]
        owner := Function.update h.owner x.i0 (some p)
        done := Function.update h.done p false }
    | _ => h
  | .take => { h with taken := h.taken ++ [s.disk.availRing (Ring.cell NUM s.devIdx)] }
  | .complete i =>
    { h with
      completed := h.completed ++ [i]
      done := match h.owner i with
        | some p => Function.update h.done p true
        | none => h.done }
  | .handle c => match s.intr c with
    | .entry => { h with processed := h.processed ++ [s.disk.usedRing (Ring.cell NUM s.disk.usedIdx)] }
    | _ => h
  | _ => h

end VirtioHist

/-- The driver and the device, with the history of the rings. -/
def virtioMachine (P C B : Type) [DecidableEq P] [DecidableEq C] [DecidableEq B] :
    Machine (VirtioSys P C B × VirtioHist P) (VirtioAct P C B) :=
  (⟨VirtioSys.Init, VirtioSys.step⟩ : Machine (VirtioSys P C B) (VirtioAct P C B)).observe .start
    VirtioHist.next

end Xv6
