import Xv6.Log
import Xv6.Reads

/-!
# Inodes and their blocks

The lower half of kernel/fs.c : the bitmap of free blocks, the inode table and the contents of files. The functions run
one at a time; `Fs` is the file system as they see it through the buffer cache. A block is its contents in the cache,
and `logged` are the distinct blocks that the operation has passed to log_write, so that what is stored in a buffer and
not passed to it can be told apart. That there is room in the log is the subject of the model of the log. A sleep lock
is a flag; to wait for an inode that the same operation has locked is to wait forever, which is an exception as a
`panic` is.

User memory is given by its bytes : in `writei`, `src a` is the byte at `src + a`, or `none` where `copyin`
fails, and in `readi`, `dst a` says whether `copyout` can write at `dst + a`. Kernel memory never fails.

A `uint` is a natural number below 2^32, and its arithmetic is reduced where the code can exceed that; a `short`
is a bit vector. There is one disk, of fewer than 2^31 blocks (block numbers are an `int` in `balloc`).
-/

namespace Xv6

abbrev NDIRECT : ℕ := 12
abbrev NINDIRECT : ℕ := 256
abbrev MAXFILE : ℕ := NDIRECT + NINDIRECT
abbrev NINODE : ℕ := 50
abbrev ROOTDEV : ℕ := 1
abbrev ROOTINO : ℕ := 1

/-- Inodes per block. -/
abbrev IPB : ℕ := 16

/-- Bits per block of the bitmap. -/
abbrev BPB : ℕ := 8192

abbrev T_DIR : BitVec 16 := 1
abbrev T_FILE : BitVec 16 := 2

/-- `struct superblock`; the log has fields of its own. -/
structure Superblock where
  size : ℕ
  nblocks : ℕ
  ninodes : ℕ
  inodestart : ℕ
  bmapstart : ℕ

def Superblock.IBLOCK (sb : Superblock) (i : ℕ) : ℕ :=
  i / IPB + sb.inodestart

def Superblock.BBLOCK (sb : Superblock) (b : ℕ) : ℕ :=
  b / BPB + sb.bmapstart

/-- `struct dinode`, and the copy of it in `struct inode`. -/
@[ext] structure Dinode where
  type : BitVec 16
  major : BitVec 16
  minor : BitVec 16
  nlink : BitVec 16
  size : ℕ
  addrs : Fin 13 → ℕ

/-- `struct inode`. -/
structure Inode where
  dev : ℕ
  inum : ℕ
  ref : ℤ
  locked : Bool
  valid : Bool
  d : Dinode

/-- The pointers to an inode of the table. -/
abbrev InodeId : Type := Fin NINODE

structure Fs where
  sb : Superblock
  block : ℕ → Block
  logged : List ℕ
  outstanding : ℕ
  inode : InodeId → Inode

/-- The calls of `panic`, and waiting for a lock that the operation has itself. -/
inductive FsPanic
  | logWriteOutsideOfTrans
  | freeingFreeBlock
  | igetNoInodes
  | ilock
  | ilockNoType
  | iunlock
  | bmapOutOfRange
  | dirlookupNotDir
  | dirlookupRead
  | dirlinkRead
  | isdirempty
  | unlinkNlink
  | unlinkWritei
  | fileread
  | deadlock
deriving DecidableEq

abbrev FsM : Type → Type :=
  StateT Fs (Except FsPanic)

/-! ## struct dinode -/

/-- The inode at index `k` of a block. -/
def dinodeAt (b : Block) (k : ℕ) : Dinode where
  type := BitVec.ofNat 16 (b.getLE (64 * k) 2)
  major := BitVec.ofNat 16 (b.getLE (64 * k + 2) 2)
  minor := BitVec.ofNat 16 (b.getLE (64 * k + 4) 2)
  nlink := BitVec.ofNat 16 (b.getLE (64 * k + 6) 2)
  size := b.getLE (64 * k + 8) 4
  addrs i := b.getLE (64 * k + 12 + 4 * i) 4

def setAddrs (b : Block) (off : ℕ) : List ℕ → Block
  | [] => b
  | a :: as => setAddrs (b.setLE off 4 a) (off + 4) as

def setDinode (b : Block) (k : ℕ) (d : Dinode) : Block :=
  let b := b.setLE (64 * k) 2 d.type.toNat
  let b := b.setLE (64 * k + 2) 2 d.major.toNat
  let b := b.setLE (64 * k + 4) 2 d.minor.toNat
  let b := b.setLE (64 * k + 6) 2 d.nlink.toNat
  let b := b.setLE (64 * k + 8) 4 d.size
  setAddrs b (64 * k + 12) (List.ofFn d.addrs)

/-- A `memset` of an inode to zero. -/
def Dinode.zero : Dinode :=
  ⟨0, 0, 0, 0, 0, fun _ => 0⟩

namespace Fs

/-- The inode `i` on the disk. -/
def dinode (s : Fs) (i : ℕ) : Dinode :=
  dinodeAt (s.block (s.sb.IBLOCK i)) (i % IPB)

/-- The data of a buffer are set. -/
def setBlock (s : Fs) (b : ℕ) (d : Block) : Fs :=
  { s with block := Function.update s.block b d }

/-- A block is recorded in the log. -/
def log (s : Fs) (b : ℕ) : Fs :=
  { s with logged := s.logged.insert b }

def setInode (s : Fs) (ip : InodeId) (x : Inode) : Fs :=
  { s with inode := Function.update s.inode ip x }

end Fs

/-! ## Blocks -/

def bread (b : ℕ) : FsM Block := do
  return (← get).block b

/-- The data of a buffer are set. -/
def bstore (b : ℕ) (d : Block) : FsM Unit :=
  modify fun s => s.setBlock b d

def logWrite (b : ℕ) : FsM Unit := do
  if (← get).outstanding < 1 then throw .logWriteOutsideOfTrans
  modify fun s => s.log b

def bzero (b : ℕ) : FsM Unit := do
  bstore b (Bytes.zero BSIZE)
  logWrite b

/-- `1 << (bi % 8)`. -/
def bitMask (bi : ℕ) : UInt8 :=
  UInt8.ofNat (1 <<< (bi % 8))

/-- Bit `bi` of a block of the bitmap is 0. -/
def bitFree (d : Block) (bi : ℕ) : Bool :=
  d.byte (bi / 8) &&& bitMask bi == 0

def setBit (d : Block) (bi : ℕ) : Block :=
  d.setByte (bi / 8) (d.byte (bi / 8) ||| bitMask bi)

def clearBit (d : Block) (bi : ℕ) : Block :=
  d.setByte (bi / 8) (d.byte (bi / 8) &&& ~~~bitMask bi)

/-- The loop of `balloc` over the blocks of the bitmap, `n` of them from that of `b` on. -/
def ballocFrom : ℕ → ℕ → FsM ℕ
  | 0, _ => return 0
  | n + 1, b => do
    let s ← get
    let d := s.block (s.sb.BBLOCK b)
    match (List.range (min BPB (s.sb.size - b))).find? fun bi => bitFree d bi with
    | some bi =>
      bstore (s.sb.BBLOCK b) (setBit d bi)
      logWrite (s.sb.BBLOCK b)
      bzero (b + bi)
      return b + bi
    | none => ballocFrom n (b + BPB)

def balloc : FsM ℕ := do
  let s ← get
  ballocFrom ((s.sb.size + (BPB - 1)) / BPB) 0

def bfree (b : ℕ) : FsM Unit := do
  let s ← get
  let d := s.block (s.sb.BBLOCK b)
  if bitFree d (b % BPB) then throw .freeingFreeBlock
  bstore (s.sb.BBLOCK b) (clearBit d (b % BPB))
  logWrite (s.sb.BBLOCK b)

/-! ## Inodes -/

def iupdate (ip : InodeId) : FsM Unit := do
  let s ← get
  let i := s.inode ip
  let b := s.sb.IBLOCK i.inum
  bstore b (setDinode (s.block b) (i.inum % IPB) i.d)
  logWrite b

def iget (dev inum : ℕ) : FsM InodeId := do
  let s ← get
  match (List.finRange NINODE).find? fun ip =>
      0 < (s.inode ip).ref ∧ (s.inode ip).dev = dev ∧ (s.inode ip).inum = inum with
  | some ip =>
    set (s.setInode ip { s.inode ip with ref := (s.inode ip).ref + 1 })
    return ip
  | none =>
    match (List.finRange NINODE).find? fun ip => (s.inode ip).ref = 0 with
    | none => throw .igetNoInodes
    | some ip =>
      set (s.setInode ip { s.inode ip with dev := dev, inum := inum, ref := 1, valid := false })
      return ip

def idup (ip : InodeId) : FsM InodeId := do
  modify fun s => s.setInode ip { s.inode ip with ref := (s.inode ip).ref + 1 }
  return ip

def acquiresleep (ip : InodeId) : FsM Unit := do
  let s ← get
  if (s.inode ip).locked then throw .deadlock
  set (s.setInode ip { s.inode ip with locked := true })

def releasesleep (ip : InodeId) : FsM Unit :=
  modify fun s => s.setInode ip { s.inode ip with locked := false }

def ilock (ip : InodeId) : FsM Unit := do
  if ((← get).inode ip).ref < 1 then throw .ilock
  acquiresleep ip
  let s ← get
  if !(s.inode ip).valid then
    let d := s.dinode (s.inode ip).inum
    set (s.setInode ip { s.inode ip with d := d, valid := true })
    if d.type = 0 then throw .ilockNoType

def iunlock (ip : InodeId) : FsM Unit := do
  let s ← get
  if !(s.inode ip).locked ∨ (s.inode ip).ref < 1 then throw .iunlock
  releasesleep ip

/-! ## The contents of inodes -/

def setAddr (ip : InodeId) (k : Fin 13) (b : ℕ) : FsM Unit :=
  modify fun s =>
    let x := s.inode ip
    s.setInode ip { x with d := { x.d with addrs := Function.update x.d.addrs k b } }

/-- The block number `addr`, or if it is 0 that of a new block, which `store` puts in its place. -/
def ballocInto (addr : ℕ) (store : ℕ → FsM Unit) : FsM ℕ := do
  if addr ≠ 0 then return addr
  let b ← balloc
  if b ≠ 0 then store b
  return b

def bmap (ip : InodeId) (bn : ℕ) : FsM ℕ := do
  if h : bn < NDIRECT then
    let k : Fin 13 := ⟨bn, Nat.lt_succ_of_lt h⟩
    ballocInto (((← get).inode ip).d.addrs k) (setAddr ip k)
  else if bn - NDIRECT < NINDIRECT then
    let addr ← ballocInto (((← get).inode ip).d.addrs (Fin.last 12)) (setAddr ip (Fin.last 12))
    if addr = 0 then return 0
    ballocInto (word (← bread addr) (bn - NDIRECT)) fun b => do
      bstore addr (setWord (← bread addr) (bn - NDIRECT) b)
      logWrite addr
  else throw .bmapOutOfRange

/-- The loop of `itrunc` over direct blocks. -/
def itruncDirect (ip : InodeId) : List (Fin 13) → FsM Unit
  | [] => return
  | k :: ks => do
    let b := ((← get).inode ip).d.addrs k
    if b ≠ 0 then
      bfree b
      setAddr ip k 0
    itruncDirect ip ks

/-- The loop of `itrunc` over the entries of the indirect block `d`, `n` of them from `j` on. -/
def itruncIndirect (d : Block) : ℕ → ℕ → FsM Unit
  | 0, _ => return
  | n + 1, j => do
    if word d j ≠ 0 then bfree (word d j)
    itruncIndirect d n (j + 1)

def itrunc (ip : InodeId) : FsM Unit := do
  itruncDirect ip ((List.finRange NDIRECT).map Fin.castSucc)
  let b := ((← get).inode ip).d.addrs (Fin.last 12)
  if b ≠ 0 then
    itruncIndirect (← bread b) NINDIRECT 0
    bfree b
    setAddr ip (Fin.last 12) 0
  modify fun s =>
    let x := s.inode ip
    s.setInode ip { x with d := { x.d with size := 0 } }
  iupdate ip

def iput (ip : InodeId) : FsM Unit := do
  let x := (← get).inode ip
  if x.ref = 1 ∧ x.valid = true ∧ x.d.nlink = 0 then
    acquiresleep ip
    itrunc ip
    modify fun s =>
      let x := s.inode ip
      s.setInode ip { x with d := { x.d with type := 0 } }
    iupdate ip
    modify fun s => s.setInode ip { s.inode ip with valid := false }
    releasesleep ip
  modify fun s => s.setInode ip { s.inode ip with ref := (s.inode ip).ref - 1 }

def iunlockput (ip : InodeId) : FsM Unit := do
  iunlock ip
  iput ip

/-- How many of `m` bytes `copyout` stores from `tot` on. -/
def room (dst : ℕ → Bool) (tot m : ℕ) : ℕ :=
  ((List.range m).takeWhile fun k => dst (tot + k)).length

/-- The loop of `readi`, at most `k` turns; the result, and the bytes stored at `dst`. -/
def readiFrom (ip : InodeId) (dst : ℕ → Bool) (n : ℕ) : ℕ → ℕ → ℕ → FsM (ℤ × List UInt8)
  | 0, tot, _ => return (tot, [])
  | k + 1, tot, off =>
    if tot < n then do
      let addr ← bmap ip (off / BSIZE)
      if addr = 0 then return (tot, [])
      let d ← bread addr
      let m := min (n - tot) (BSIZE - off % BSIZE)
      let bytes := d.getBytes (off % BSIZE) m
      if room dst tot m < m then return (-1, bytes.take (room dst tot m))
      let (r, rest) ← readiFrom ip dst n k (tot + m) (off + m)
      return (r, bytes ++ rest)
    else return (tot, [])

/-- `readi`; every turn of its loop moves a byte at least. -/
def readi (ip : InodeId) (dst : ℕ → Bool) (off n : ℕ) : FsM (ℤ × List UInt8) := do
  let size := ((← get).inode ip).d.size
  if off > size ∨ (off + n) % 4294967296 < off then return (0, [])
  let n := if (off + n) % 4294967296 > size then size - off else n
  readiFrom ip dst n n 0 off

/-- The loop of `writei`, at most `k` turns; `tot` and `off` after it. -/
def writeiFrom (ip : InodeId) (src : ℕ → Option UInt8) (n : ℕ) : ℕ → ℕ → ℕ → FsM (ℕ × ℕ)
  | 0, tot, off => return (tot, off)
  | k + 1, tot, off =>
    if tot < n then do
      let addr ← bmap ip (off / BSIZE)
      if addr = 0 then return (tot, off)
      let m := min (n - tot) (BSIZE - off % BSIZE)
      let (ok, bytes) := fetch src m tot
      bstore addr ((← bread addr).setBytes (off % BSIZE) bytes)
      if !ok then return (tot, off)
      logWrite addr
      writeiFrom ip src n k (tot + m) (off + m)
    else return (tot, off)

/-- `writei`; every turn of its loop moves a byte at least. -/
def writei (ip : InodeId) (src : ℕ → Option UInt8) (off n : ℕ) : FsM ℤ := do
  let size := ((← get).inode ip).d.size
  if off > size ∨ (off + n) % 4294967296 < off then return -1
  if (off + n) % 4294967296 > MAXFILE * BSIZE then return -1
  let (tot, off) ← writeiFrom ip src n n 0 off
  modify fun s =>
    let x := s.inode ip
    if off > x.d.size then s.setInode ip { x with d := { x.d with size := off } } else s
  iupdate ip
  return tot

end Xv6
