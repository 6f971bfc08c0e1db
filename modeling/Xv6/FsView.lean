import Xv6.Ends
import Xv6.Fs

/-!
# What the blocks of the disk mean

A file system is read off its blocks in three parts : which blocks are free (`Fs.free`), the inodes on the disk
(`Fs.dinode`), and the data blocks. The blocks of the bitmap and of the inodes come before all data blocks
(`Superblock.Ok`), so that a store in one part is not seen in the others.

`balloc` takes a free block, if there is one (`balloc_ends`); `Fs.alloc` is what it does to the file system,
`Fs.dealloc` what `bfree` does and `Fs.sync` what `iupdate` does.
-/

set_option linter.unusedSectionVars false

namespace Xv6

/-! ## Bits -/

theorem bitMask_toBitVec (i : ℕ) : (bitMask i).toBitVec = BitVec.twoPow 8 (i % 8) := by
  rw [bitMask, UInt8.toBitVec_ofNat', Nat.one_shiftLeft]
  exact BitVec.eq_of_toNat_eq (by rw [BitVec.toNat_ofNat, BitVec.toNat_twoPow])

/-- Bit `bi` of a block of the bitmap. -/
def usedBit (d : Block) (bi : ℕ) : Bool :=
  (d.byte (bi / 8)).toBitVec.getLsbD (bi % 8)

theorem bitFree_eq (d : Block) (bi : ℕ) : bitFree d bi = !usedBit d bi := by
  rw [bitFree, usedBit, Bool.eq_iff_iff, beq_iff_eq, ← UInt8.toBitVec_inj, UInt8.toBitVec_and, bitMask_toBitVec,
    BitVec.and_twoPow]
  have hlt : bi % 8 < 8 := Nat.mod_lt _ (by decide)
  cases (d.byte (bi / 8)).toBitVec.getLsbD (bi % 8) with
  | false => simp
  | true =>
    refine iff_of_false (fun h => ?_) (by simp)
    have hbit := congrArg (fun v : BitVec 8 => v.getLsbD (bi % 8)) h
    simp [hlt] at hbit

section Bits

variable (d : Block) {bi bj : ℕ} (hi : bi < 8192)
include hi

theorem usedBit_setBit : usedBit (setBit d bi) bj = (usedBit d bj || bi == bj) := by
  have hlt : bi % 8 < 8 := Nat.mod_lt _ (by decide)
  rw [usedBit, usedBit, setBit, Bytes.byte_setByte]
  by_cases hbyte : bj / 8 = bi / 8
  · have hbit : (bi % 8 = bj % 8) ↔ bi = bj := by omega
    rw [if_pos ⟨hbyte, by change bi / 8 < 1024; omega⟩, UInt8.toBitVec_or, BitVec.getLsbD_or, bitMask_toBitVec,
      BitVec.getLsbD_twoPow, hbyte, Bool.eq_iff_iff]
    simp only [Bool.or_eq_true, beq_iff_eq, Bool.and_eq_true, decide_eq_true_eq, hlt, true_and, hbit]
  · have hne : ¬ bi = bj := fun h => hbyte (h ▸ rfl)
    rw [if_neg fun h => hbyte h.1, beq_false_of_ne hne, Bool.or_false]

theorem usedBit_clearBit : usedBit (clearBit d bi) bj = (usedBit d bj && bi != bj) := by
  have hlt : bi % 8 < 8 := Nat.mod_lt _ (by decide)
  have hlt' : bj % 8 < 8 := Nat.mod_lt _ (by decide)
  rw [usedBit, usedBit, clearBit, Bytes.byte_setByte]
  by_cases hbyte : bj / 8 = bi / 8
  · have hbit : (bi % 8 = bj % 8) ↔ bi = bj := by omega
    rw [if_pos ⟨hbyte, by change bi / 8 < 1024; omega⟩, UInt8.toBitVec_and, BitVec.getLsbD_and, UInt8.toBitVec_not,
      BitVec.getLsbD_not, bitMask_toBitVec, BitVec.getLsbD_twoPow, hbyte, Bool.eq_iff_iff]
    simp only [Bool.and_eq_true, bne_iff_ne, Bool.not_eq_true', hlt, hlt', decide_true, Bool.true_and,
      decide_eq_false_iff_not, hbit, ne_eq]
  · have hne : bi ≠ bj := fun h => hbyte (h ▸ rfl)
    rw [if_neg fun h => hbyte h.1, bne_iff_ne.mpr hne, Bool.and_true]

end Bits

/-! ## Inodes on the disk -/

theorem getLE_setAddrs_of_disjoint (b : Block) {off off' k : ℕ} {as : List ℕ}
    (h : off' + k ≤ off ∨ off + 4 * as.length ≤ off') : (setAddrs b off as).getLE off' k = b.getLE off' k := by
  induction as generalizing b off with
  | nil => rfl
  | cons a as ih =>
    rw [List.length_cons] at h
    rw [setAddrs, ih _ (by omega), Bytes.getLE_setLE_of_disjoint _ _ (by omega)]

theorem getLE_setAddrs (b : Block) {off j : ℕ} {as : List ℕ} (hj : j < as.length) (h : off + 4 * as.length ≤ 1024) :
    (setAddrs b off as).getLE (off + 4 * j) 4 = as[j] % 4294967296 := by
  induction as generalizing b off j with
  | nil => exact absurd hj (Nat.not_lt_zero j)
  | cons a as ih =>
    rw [List.length_cons] at h
    rw [setAddrs]
    cases j with
    | zero =>
      rw [getLE_setAddrs_of_disjoint _ (by omega), Nat.mul_zero, Nat.add_zero,
        Bytes.getLE_setLE _ _ (show off + 4 ≤ 1024 by omega)]
      rfl
    | succ j =>
      have hj' : j < as.length := Nat.lt_of_succ_lt_succ hj
      rw [show off + 4 * (j + 1) = off + 4 + 4 * j by omega, ih _ hj' (by omega)]
      rfl

/-- The fields fit in their places on the disk. -/
def Dinode.Fits (d : Dinode) : Prop :=
  d.size < 4294967296 ∧ ∀ k, d.addrs k < 4294967296

theorem dinodeAt_setDinode_self (b : Block) {k : ℕ} {d : Dinode} (hk : k < 16) (hd : d.Fits) :
    dinodeAt (setDinode b k d) k = d := by
  have hlen : (List.ofFn d.addrs).length = 13 := List.length_ofFn
  have hfield : ∀ {off n : ℕ}, off + n ≤ 64 * k + 12 → ∀ b : Block,
      (setAddrs b (64 * k + 12) (List.ofFn d.addrs)).getLE off n = b.getLE off n := fun h b =>
    getLE_setAddrs_of_disjoint b (Or.inl h)
  have hshort : ∀ (b : Block) (x : BitVec 16) {off : ℕ}, off + 2 ≤ 1024 →
      BitVec.ofNat 16 ((b.setLE off 2 x.toNat).getLE off 2) = x := by
    intro b x off hoff
    have hx : x.toNat % 256 ^ 2 = x.toNat := Nat.mod_eq_of_lt x.isLt
    rw [Bytes.getLE_setLE _ _ hoff, hx, BitVec.ofNat_toNat, BitVec.setWidth_eq]
  unfold setDinode dinodeAt
  ext1
  · dsimp only
    rw [hfield (by omega), Bytes.getLE_setLE_of_disjoint _ _ (by omega), Bytes.getLE_setLE_of_disjoint _ _ (by omega),
      Bytes.getLE_setLE_of_disjoint _ _ (by omega), Bytes.getLE_setLE_of_disjoint _ _ (by omega), hshort _ _ (by omega)]
  · dsimp only
    rw [hfield (by omega), Bytes.getLE_setLE_of_disjoint _ _ (by omega), Bytes.getLE_setLE_of_disjoint _ _ (by omega),
      Bytes.getLE_setLE_of_disjoint _ _ (by omega), hshort _ _ (by omega)]
  · dsimp only
    rw [hfield (by omega), Bytes.getLE_setLE_of_disjoint _ _ (by omega), Bytes.getLE_setLE_of_disjoint _ _ (by omega),
      hshort _ _ (by omega)]
  · dsimp only
    rw [hfield (by omega), Bytes.getLE_setLE_of_disjoint _ _ (by omega), hshort _ _ (by omega)]
  · dsimp only
    rw [hfield (by omega), Bytes.getLE_setLE _ _ (show 64 * k + 8 + 4 ≤ 1024 by omega)]
    exact Nat.mod_eq_of_lt hd.1
  · funext i
    have hi : i.val < (List.ofFn d.addrs).length := by
      rw [hlen]
      exact i.isLt
    dsimp only
    rw [getLE_setAddrs _ hi (by omega), List.getElem_ofFn]
    exact Nat.mod_eq_of_lt (hd.2 i)

theorem dinodeAt_setDinode_of_ne (b : Block) {j k : ℕ} (d : Dinode) (h : j ≠ k) :
    dinodeAt (setDinode b k d) j = dinodeAt b j := by
  have hlen : (List.ofFn d.addrs).length = 13 := List.length_ofFn
  have hget : ∀ {off n : ℕ}, off + n ≤ 64 * k ∨ 64 * k + 64 ≤ off →
      (setDinode b k d).getLE off n = b.getLE off n := by
    intro off n hoff
    unfold setDinode
    rw [getLE_setAddrs_of_disjoint _ (by omega), Bytes.getLE_setLE_of_disjoint _ _ (by omega),
      Bytes.getLE_setLE_of_disjoint _ _ (by omega), Bytes.getLE_setLE_of_disjoint _ _ (by omega),
      Bytes.getLE_setLE_of_disjoint _ _ (by omega), Bytes.getLE_setLE_of_disjoint _ _ (by omega)]
  unfold dinodeAt
  rw [hget (by omega), hget (by omega), hget (by omega), hget (by omega), hget (by omega)]
  congr 1
  funext i
  rw [hget (by omega)]

/-! ## The layout of the disk -/

namespace Superblock

/-- The first data block. -/
def datastart (sb : Superblock) : ℕ :=
  sb.size - sb.nblocks

/-- The inodes come before the bitmap, and the bitmap before the data. -/
structure Ok (sb : Superblock) : Prop where
  inodes : ∀ i, i < sb.ninodes → sb.IBLOCK i < sb.bmapstart
  bitmap : ∀ b, b < sb.size → sb.BBLOCK b < sb.datastart
  lt : sb.size < 2147483648

end Superblock

namespace Fs

variable {s s' : Fs} {b c i : ℕ}

/-- Block `b` is free in the bitmap. -/
def free (s : Fs) (b : ℕ) : Bool :=
  bitFree (s.block (s.sb.BBLOCK b)) (b % BPB)

/-- A block can be taken without a panic of log_write. -/
def CanTake (s : Fs) : Prop :=
  (∃ c, c < s.sb.size ∧ s.free c = true) → 0 < s.outstanding

/-- The inodes on the disk. -/
def files (s : Fs) (i : ℕ) : Dinode :=
  if i < s.sb.ninodes then s.dinode i else .zero

@[simp] theorem setBlock_sb (d : Block) : (s.setBlock b d).sb = s.sb := rfl

@[simp] theorem setBlock_inode (d : Block) : (s.setBlock b d).inode = s.inode := rfl

@[simp] theorem setBlock_logged (d : Block) : (s.setBlock b d).logged = s.logged := rfl

@[simp] theorem setBlock_outstanding (d : Block) : (s.setBlock b d).outstanding = s.outstanding := rfl

@[simp] theorem setBlock_block_self (d : Block) : (s.setBlock b d).block b = d :=
  Function.update_self ..

theorem setBlock_block_of_ne (d : Block) (h : c ≠ b) : (s.setBlock b d).block c = s.block c :=
  Function.update_of_ne h ..

@[simp] theorem log_sb : (s.log b).sb = s.sb := rfl

@[simp] theorem log_block : (s.log b).block = s.block := rfl

@[simp] theorem log_inode : (s.log b).inode = s.inode := rfl

@[simp] theorem log_logged : (s.log b).logged = s.logged.insert b := rfl

@[simp] theorem log_outstanding : (s.log b).outstanding = s.outstanding := rfl

@[simp] theorem setInode_sb (ip : InodeId) (x : Inode) : (s.setInode ip x).sb = s.sb := rfl

@[simp] theorem setInode_block (ip : InodeId) (x : Inode) : (s.setInode ip x).block = s.block := rfl

@[simp] theorem setInode_logged (ip : InodeId) (x : Inode) : (s.setInode ip x).logged = s.logged := rfl

@[simp] theorem setInode_outstanding (ip : InodeId) (x : Inode) : (s.setInode ip x).outstanding = s.outstanding := rfl

@[simp] theorem setInode_inode_self (ip : InodeId) (x : Inode) : (s.setInode ip x).inode ip = x :=
  Function.update_self ..

theorem setInode_inode_of_ne {ip jp : InodeId} (x : Inode) (h : jp ≠ ip) : (s.setInode ip x).inode jp = s.inode jp :=
  Function.update_of_ne h ..

@[simp] theorem setInode_free (ip : InodeId) (x : Inode) : (s.setInode ip x).free = s.free := rfl

@[simp] theorem setInode_files (ip : InodeId) (x : Inode) : (s.setInode ip x).files = s.files := rfl

@[simp] theorem log_free : (s.log b).free = s.free := rfl

@[simp] theorem log_files : (s.log b).files = s.files := rfl

/-! ## Stores in one part -/

theorem free_congr (hsb : s'.sb = s.sb) (h : s'.block (s.sb.BBLOCK c) = s.block (s.sb.BBLOCK c)) :
    s'.free c = s.free c := by
  rw [free, free, hsb, h]

theorem files_congr (hsb : s'.sb = s.sb) (h : ∀ i, i < s.sb.ninodes → s'.block (s.sb.IBLOCK i) = s.block (s.sb.IBLOCK i)) :
    s'.files = s.files := by
  funext i
  rw [files, files, hsb]
  split_ifs with hi
  · rw [dinode, dinode, hsb, h i hi]
  · rfl

section Ok

variable (hok : s.sb.Ok)
include hok

theorem bitmap_ne (hc : s.sb.datastart ≤ c) (hb : b < s.sb.size) : s.sb.BBLOCK b ≠ c :=
  Nat.ne_of_lt (Nat.lt_of_lt_of_le (hok.bitmap b hb) hc)

theorem inodes_ne (hb : s.sb.bmapstart ≤ b) (hi : i < s.sb.ninodes) : s.sb.IBLOCK i ≠ b :=
  Nat.ne_of_lt (Nat.lt_of_lt_of_le (hok.inodes i hi) hb)

theorem bmapstart_le (hb : c < s.sb.size) (h : s.sb.datastart ≤ b) : s.sb.bmapstart ≤ b :=
  Nat.le_trans (Nat.le_add_left _ _) (Nat.le_trans (Nat.le_of_lt (hok.bitmap c hb)) h)

/-- A data block is stored. -/
theorem free_setBlock (hb : s.sb.datastart ≤ b) (hc : c < s.sb.size) (d : Block) :
    (s.setBlock b d).free c = s.free c :=
  free_congr rfl (setBlock_block_of_ne d (bitmap_ne hok hb hc))

theorem files_setBlock (hb : s.sb.bmapstart ≤ b) (d : Block) : (s.setBlock b d).files = s.files :=
  files_congr rfl fun _ hi => setBlock_block_of_ne d (inodes_ne hok hb hi)

end Ok

/-! ## Taking and freeing a block -/

/-- What `balloc` does when it takes the block `b`. -/
def alloc (s : Fs) (b : ℕ) : Fs :=
  (((s.setBlock (s.sb.BBLOCK b) (setBit (s.block (s.sb.BBLOCK b)) (b % BPB))).log (s.sb.BBLOCK b)).setBlock b
    (Bytes.zero BSIZE)).log b

/-- What `bfree` does. -/
def dealloc (s : Fs) (b : ℕ) : Fs :=
  (s.setBlock (s.sb.BBLOCK b) (clearBit (s.block (s.sb.BBLOCK b)) (b % BPB))).log (s.sb.BBLOCK b)

@[simp] theorem alloc_sb : (s.alloc b).sb = s.sb := rfl

@[simp] theorem alloc_outstanding : (s.alloc b).outstanding = s.outstanding := rfl

@[simp] theorem alloc_inode : (s.alloc b).inode = s.inode := rfl

@[simp] theorem dealloc_sb : (s.dealloc b).sb = s.sb := rfl

@[simp] theorem dealloc_outstanding : (s.dealloc b).outstanding = s.outstanding := rfl

@[simp] theorem dealloc_inode : (s.dealloc b).inode = s.inode := rfl

section Ok

variable (hok : s.sb.Ok) (hb : b < s.sb.size)
include hok hb

theorem alloc_block (hc : s.sb.datastart ≤ c) (hcb : c ≠ b) : (s.alloc b).block c = s.block c :=
  (setBlock_block_of_ne _ hcb).trans (setBlock_block_of_ne _ (bitmap_ne hok hc hb).symm)

theorem alloc_block_self : (s.alloc b).block b = Bytes.zero BSIZE :=
  setBlock_block_self _

theorem dealloc_block (hc : s.sb.datastart ≤ c) : (s.dealloc b).block c = s.block c :=
  setBlock_block_of_ne _ (bitmap_ne hok hc hb).symm

/-- A block of the bitmap is stored, with bit `b` changed. -/
theorem free_bitmap {d : Block} (hd : ∀ bj, bj < 8192 → bj ≠ b % BPB →
      bitFree d bj = bitFree (s.block (s.sb.BBLOCK b)) bj) :
    (s.setBlock (s.sb.BBLOCK b) d).free c = if c = b then bitFree d (b % BPB) else s.free c := by
  by_cases hblock : s.sb.BBLOCK c = s.sb.BBLOCK b
  · have hdiv : c / 8192 = b / 8192 := Nat.add_right_cancel hblock
    rw [free, setBlock_sb, hblock, setBlock_block_self]
    split_ifs with hcb
    · rw [hcb]
    · rw [hd (c % 8192) (Nat.mod_lt _ (by decide)) (by change c % 8192 ≠ b % 8192; omega), free, hblock]
  · rw [if_neg fun h => hblock (by rw [h])]
    exact free_congr rfl (setBlock_block_of_ne d hblock)

theorem alloc_free (hdata : s.sb.datastart ≤ b) (hc : c < s.sb.size) : (s.alloc b).free c = (s.free c && c != b) := by
  have hlt : b % BPB < 8192 := Nat.mod_lt _ (by decide)
  have hset := free_bitmap hok hb (c := c) (d := setBit (s.block (s.sb.BBLOCK b)) (b % BPB)) fun bj _ hne => by
    rw [bitFree_eq, bitFree_eq, usedBit_setBit _ hlt, beq_false_of_ne hne.symm, Bool.or_false]
  have hzero : (s.alloc b).free c = (s.setBlock (s.sb.BBLOCK b) (setBit (s.block (s.sb.BBLOCK b)) (b % BPB))).free c :=
    free_setBlock (s := s.setBlock (s.sb.BBLOCK b) _) hok hdata hc _
  rw [hzero, hset, bitFree_eq, usedBit_setBit _ hlt, beq_self_eq_true]
  split_ifs with hcb
  · rw [hcb, bne_self_eq_false, Bool.and_false, Bool.or_true, Bool.not_true]
  · rw [bne_iff_ne.mpr hcb, Bool.and_true]

theorem alloc_files (hdata : s.sb.datastart ≤ b) : (s.alloc b).files = s.files := by
  have hzero : (s.alloc b).files = (s.setBlock (s.sb.BBLOCK b) (setBit (s.block (s.sb.BBLOCK b)) (b % BPB))).files :=
    files_setBlock (s := s.setBlock (s.sb.BBLOCK b) _) hok (bmapstart_le hok hb hdata) _
  rw [hzero]
  exact files_setBlock hok (Nat.le_add_left _ _) _

theorem dealloc_free : (s.dealloc b).free c = (s.free c || c == b) := by
  have hlt : b % BPB < 8192 := Nat.mod_lt _ (by decide)
  have hset := free_bitmap hok hb (c := c) (d := clearBit (s.block (s.sb.BBLOCK b)) (b % BPB)) fun bj _ hne => by
    rw [bitFree_eq, bitFree_eq, usedBit_clearBit _ hlt, bne_iff_ne.mpr hne.symm, Bool.and_true]
  have hfree : (s.dealloc b).free c = (s.setBlock (s.sb.BBLOCK b) (clearBit (s.block (s.sb.BBLOCK b)) (b % BPB))).free c :=
    rfl
  rw [hfree, hset, bitFree_eq, usedBit_clearBit _ hlt, bne_self_eq_false, Bool.and_false, Bool.not_false]
  split_ifs with hcb
  · rw [hcb, beq_self_eq_true, Bool.or_true]
  · rw [beq_false_of_ne hcb, Bool.or_false]

theorem dealloc_files : (s.dealloc b).files = s.files :=
  files_setBlock hok (Nat.le_add_left _ _) _

end Ok

/-! ## Storing an inode -/

/-- What `iupdate` does. -/
def sync (s : Fs) (ip : InodeId) : Fs :=
  (s.setBlock (s.sb.IBLOCK (s.inode ip).inum)
    (setDinode (s.block (s.sb.IBLOCK (s.inode ip).inum)) ((s.inode ip).inum % IPB) (s.inode ip).d)).log
      (s.sb.IBLOCK (s.inode ip).inum)

@[simp] theorem sync_sb (ip : InodeId) : (s.sync ip).sb = s.sb := rfl

@[simp] theorem sync_outstanding (ip : InodeId) : (s.sync ip).outstanding = s.outstanding := rfl

@[simp] theorem sync_inode (ip : InodeId) : (s.sync ip).inode = s.inode := rfl

section Ok

variable {ip : InodeId} (hok : s.sb.Ok) (hi : (s.inode ip).inum < s.sb.ninodes)
include hok hi

theorem sync_block (hc : s.sb.bmapstart ≤ c) : (s.sync ip).block c = s.block c :=
  setBlock_block_of_ne _ (inodes_ne hok hc hi).symm

theorem sync_files (hd : (s.inode ip).d.Fits) :
    (s.sync ip).files = Function.update s.files (s.inode ip).inum (s.inode ip).d := by
  funext i
  by_cases hin : i < s.sb.ninodes
  · rw [files, sync_sb, if_pos hin, dinode, sync_sb, sync, log_block]
    by_cases hself : i = (s.inode ip).inum
    · rw [hself, setBlock_block_self, dinodeAt_setDinode_self _ (Nat.mod_lt _ (by decide)) hd, Function.update_self]
    · rw [Function.update_of_ne hself, files, if_pos hin, dinode]
      by_cases hblock : s.sb.IBLOCK i = s.sb.IBLOCK (s.inode ip).inum
      · have hdiv : i / 16 = (s.inode ip).inum / 16 := Nat.add_right_cancel hblock
        rw [hblock, setBlock_block_self, dinodeAt_setDinode_of_ne]
        change i % 16 ≠ (s.inode ip).inum % 16
        omega
      · rw [setBlock_block_of_ne _ hblock]
  · have hself : i ≠ (s.inode ip).inum := fun h => hin (h ▸ hi)
    rw [Function.update_of_ne hself, files, files, sync_sb, if_neg hin, if_neg hin]

end Ok

end Fs

theorem bstore_bind {β : Type} {s : Fs} {b : ℕ} {d : Block} {f : Unit → FsM β} {S : β → Fs → Prop}
    (h : Ends (f ()) (s.setBlock b d) S) : Ends (bstore b d >>= f) s S :=
  h

section Op

variable {β : Type} {s : Fs} {b : ℕ} {f : Unit → FsM β} {S : β → Fs → Prop} (hop : 0 < s.outstanding)
include hop

theorem logWrite_ends : Ends (logWrite b) s fun _ s' => s' = s.log b := by
  rw [logWrite]
  refine .get_bind ?_
  simp only [Nat.not_lt.mpr hop, if_false]
  exact .write rfl

theorem logWrite_bind (h : Ends (f ()) (s.log b) S) : Ends (logWrite b >>= f) s S :=
  .bind (logWrite_ends hop) fun _ _ hs => hs ▸ h

theorem bzero_bind (h : Ends (f ()) ((s.setBlock b (Bytes.zero BSIZE)).log b) S) : Ends (bzero b >>= f) s S := by
  refine .bind (Q := fun _ s' => s' = (s.setBlock b (Bytes.zero BSIZE)).log b) ?_ fun _ _ hs => hs ▸ h
  rw [bzero]
  exact bstore_bind (logWrite_ends hop)

theorem iupdate_ends {ip : InodeId} : Ends (iupdate ip) s fun _ s' => s' = s.sync ip := by
  rw [iupdate]
  exact .get_bind (bstore_bind (logWrite_ends hop))

end Op

/-- The loop of `balloc`, once the blocks before `b` have been found used. -/
theorem ballocFrom_ends {s : Fs} (hop : s.CanTake) (n : ℕ) :
    ∀ {b : ℕ}, b % 8192 = 0 → s.sb.size ≤ b + 8192 * n →
    (∀ c, c < b → c < s.sb.size → s.free c = false) → Ends (ballocFrom n b) s fun r s' =>
      (r < s.sb.size ∧ s.free r = true ∧ s' = s.alloc r) ∨ (r = 0 ∧ s' = s ∧ ∀ c, c < s.sb.size → s.free c = false) := by
  induction n with
  | zero =>
    intro b _ hsize hused
    exact .pure (Or.inr ⟨rfl, rfl, fun c hc => hused c (by omega) hc⟩)
  | succ n ih =>
    intro b hmod hsize hused
    have hbit : ∀ bi, bi < 8192 → s.free (b + bi) = bitFree (s.block (s.sb.BBLOCK b)) bi := by
      intro bi hbi
      have hdiv : (b + bi) / 8192 = b / 8192 := by omega
      have hmod : (b + bi) % 8192 = bi := by omega
      rw [Fs.free, Superblock.BBLOCK, Superblock.BBLOCK, BPB, hdiv, hmod]
    rw [ballocFrom]
    refine .get_bind ?_
    dsimp only
    cases hfind : (List.range (min BPB (s.sb.size - b))).find? fun bi => bitFree (s.block (s.sb.BBLOCK b)) bi with
    | some bi =>
      have hbi := List.mem_range.mp (List.mem_of_find?_eq_some hfind)
      have hlt : bi < 8192 ∧ bi < s.sb.size - b := Nat.lt_min.mp hbi
      have hdiv : s.sb.BBLOCK (b + bi) = s.sb.BBLOCK b := by
        change (b + bi) / 8192 + _ = b / 8192 + _
        omega
      have hmod : (b + bi) % BPB = bi := by
        change (b + bi) % 8192 = bi
        omega
      have hfree : s.free (b + bi) = true := by
        rw [hbit bi hlt.1]
        exact List.find?_some hfind
      have hop := hop ⟨b + bi, by omega, hfree⟩
      refine bstore_bind (logWrite_bind hop (bzero_bind hop (.pure ?_)))
      refine Or.inl ⟨by omega, hfree, ?_⟩
      rw [Fs.alloc, hdiv, hmod]
    | none =>
      refine ih (b := b + BPB) (by change (b + 8192) % 8192 = 0; omega) (by change _ ≤ b + 8192 + 8192 * n; omega) fun c hc hlt => ?_
      change c < b + 8192 at hc
      obtain hc' | hc' := Nat.lt_or_ge c b
      · exact hused c hc' hlt
      · have hbi : c - b < 8192 := by omega
        have hnone := List.find?_eq_none.mp hfind (c - b) (List.mem_range.mpr (by change c - b < min 8192 _; omega))
        rw [← hbit _ hbi, Nat.add_sub_cancel' hc'] at hnone
        exact Bool.eq_false_iff.mpr hnone

/-- `balloc` takes a free block, or finds that there is none. -/
theorem balloc_ends {s : Fs} (hop : s.CanTake) : Ends balloc s fun r s' =>
    (r < s.sb.size ∧ s.free r = true ∧ s' = s.alloc r) ∨ (r = 0 ∧ s' = s ∧ ∀ c, c < s.sb.size → s.free c = false) := by
  rw [balloc]
  refine .get_bind (ballocFrom_ends hop _ rfl ?_ fun c hc => absurd hc (Nat.not_lt_zero c))
  change s.sb.size ≤ 0 + 8192 * ((s.sb.size + 8191) / 8192)
  omega

end Xv6
