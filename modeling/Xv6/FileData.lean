import Xv6.FsBlocks

/-!
# Reading and writing files

`readi` and `writei` go over the blocks of a file. What they read and write is stated by the bytes of the file
(`Fs.fileByte`) : `readi` fetches them, and `writei` replaces those of its range, as far as there are blocks and the
source can be read.
-/

namespace Xv6

namespace Fs

variable {s s' : Fs} {ip : InodeId} {off bn r : ℕ} {bytes : List UInt8} {v : ℕ → UInt8}

/-! ## Storing bytes in a block of a file -/

/-- Bytes are stored in the block of the file that has them. -/
def storeBytes (s : Fs) (r off : ℕ) (bytes : List UInt8) : Fs :=
  s.setBlock r ((s.block r).setBytes (off % BSIZE) bytes)

theorem fileBlock_inj (hB : s.Blocks (s.live ip)) {bn bn' : ℕ}
    (heq : s.fileBlock (s.inode ip).d bn = s.fileBlock (s.inode ip).d bn') (h0 : s.fileBlock (s.inode ip).d bn ≠ 0) :
    bn = bn' := by
  have hlt := lt_of_fileBlock h0
  have hlt' := lt_of_fileBlock (heq ▸ h0)
  rw [fileBlock_of_lt hlt] at heq h0
  rw [fileBlock_of_lt hlt'] at heq
  exact fileSlot_inj hlt hlt' (hB.inj heq h0)

section Store

variable (hB : s.Blocks (s.live ip)) (hr : s.fileBlock (s.inode ip).d (off / 1024) = r) (h0 : r ≠ 0)
  (hlen : off % 1024 + bytes.length ≤ 1024)
include hB hr h0

theorem store_range : s.sb.datastart ≤ r ∧ r < s.sb.size ∧ s.free r = false := by
  subst hr
  have hlt := lt_of_fileBlock h0
  rw [fileBlock_of_lt hlt] at h0 ⊢
  exact ⟨(hB.range h0).1, (hB.range h0).2, hB.used h0⟩

/-- The block is the indirect block of no inode. -/
theorem store_ne_indirect (i : ℕ) : (s.live ip i).addrs (Fin.last 12) ≠ r := by
  subst hr
  have hlt := lt_of_fileBlock h0
  rw [fileBlock_of_lt hlt] at h0 ⊢
  intro heq
  have hinj := hB.owned.inj ((s.inode ip).inum, fileSlot (off / 1024)) (i, .indirect)
    (by dsimp only; rw [live_self]; exact heq.symm) (by dsimp only; rwa [live_self])
  exact fileSlot_ne_indirect _ (congrArg Prod.snd hinj)

theorem storeBytes_slotAt (bytes : List UInt8) (i : ℕ) (k : FileSlot) :
    (s.storeBytes r off bytes).slotAt (s.live ip i) k = s.slotAt (s.live ip i) k :=
  slotAt_congr (fun _ => setBlock_block_of_ne _ (store_ne_indirect hB hr h0 i)) k

theorem storeBytes_live : (s.storeBytes r off bytes).live ip = s.live ip := by
  obtain ⟨hlo, hlt, -⟩ := store_range hB hr h0
  rw [live, storeBytes, files_setBlock hB.ok (bmapstart_le hB.ok hlt hlo)]
  rfl

theorem storeBytes_free {c : ℕ} (hc : c < s.sb.size) : (s.storeBytes r off bytes).free c = s.free c :=
  free_setBlock hB.ok (store_range hB hr h0).1 hc _

theorem storeBytes_blocks : (s.storeBytes r off bytes).Blocks ((s.storeBytes r off bytes).live ip) := by
  refine ⟨hB.ok, ?_⟩
  rw [storeBytes_live hB hr h0]
  exact hB.owned.congr (fun c hc => storeBytes_free hB hr h0 hc) fun x => storeBytes_slotAt hB hr h0 bytes x.1 x.2

theorem storeBytes_fileBlock (bn : ℕ) :
    (s.storeBytes r off bytes).fileBlock ((s.storeBytes r off bytes).inode ip).d bn = s.fileBlock (s.inode ip).d bn := by
  have h := storeBytes_slotAt hB hr h0 bytes (s.inode ip).inum (fileSlot bn)
  rw [live_self] at h
  rw [fileBlock, fileBlock]
  exact if_congr Iff.rfl h rfl

include hlen

theorem storeBytes_wrote (hv : ∀ j, (hj : j < bytes.length) → v (off + j) = bytes[j]) :
    Wrote ip off (off + bytes.length) v s (s.storeBytes r off bytes) := by
  obtain ⟨hlo, hlt, hused⟩ := store_range hB hr h0
  have hslot : ∀ k, (s.storeBytes r off bytes).slotAt (s.inode ip).d k = s.slotAt (s.inode ip).d k := fun k => by
    have h := storeBytes_slotAt hB hr h0 bytes (s.inode ip).inum k
    rwa [live_self] at h
  have hblock : ∀ bn, (s.storeBytes r off bytes).fileBlock (s.inode ip).d bn = s.fileBlock (s.inode ip).d bn := fun bn => by
    rw [fileBlock, fileBlock, hslot]
  have hnum : ∀ bn, s.fileBlock (s.inode ip).d bn = r → bn = off / 1024 := fun bn hbn =>
    fileBlock_inj hB (hbn.trans hr.symm) (hbn ▸ h0)
  refine ⟨rfl, rfl, fun _ _ => rfl, ⟨_, rfl⟩, ?_, fun k _ => hslot k, fun k h0 hk => absurd ((hslot k).trans h0) hk,
    fun c hc hfree => ?_, fun c hc hfree hused => ?_, fun c _ _ _ hc => ?_, fun o hlo hhi => ?_, fun o x hx => ?_⟩
  · exact files_setBlock hB.ok (bmapstart_le hB.ok hlt hlo) _
  · rwa [storeBytes_free hB hr h0 hc] at hfree
  · rw [storeBytes_free hB hr h0 hc, hfree] at hused
    cases hused
  · refine setBlock_block_of_ne _ fun hcr => ?_
    rw [← hr, fileBlock_of_lt (lt_of_fileBlock (hr ▸ h0))] at hcr
    exact hc _ hcr.symm
  · have ho : o / 1024 = off / 1024 := by omega
    rw [Ne, fileByte_eq_none]
    change (s.storeBytes r off bytes).fileBlock (s.inode ip).d _ ≠ 0
    rwa [hblock, ho, hr]
  · obtain ⟨hne, hx⟩ := fileByte_eq_some.mp hx
    change (s.storeBytes r off bytes).fileBlock (s.inode ip).d _ ≠ 0 at hne
    change ((s.storeBytes r off bytes).block ((s.storeBytes r off bytes).fileBlock (s.inode ip).d _)).byte _ = x at hx
    rw [hblock] at hne hx
    by_cases hor : s.fileBlock (s.inode ip).d (o / 1024) = r
    · have ho := hnum _ hor
      have hold : (s.fileByte (s.inode ip).d o).getD 0 = (s.block r).byte (o % 1024) := by
        rw [fileByte, hor, if_neg h0, Option.getD_some]
      rw [hor, storeBytes, setBlock_block_self, Bytes.byte_setBytes _ (by exact hlen)] at hx
      rw [← hx, hold]
      change (if off % 1024 ≤ o % 1024 ∧ o % 1024 < off % 1024 + bytes.length then
        bytes.getD (o % 1024 - off % 1024) 0 else _) = _
      have hiff : (off % 1024 ≤ o % 1024 ∧ o % 1024 < off % 1024 + bytes.length) ↔
          off ≤ o ∧ o < off + bytes.length := by omega
      rw [if_congr hiff rfl rfl]
      split_ifs with hin
      · have hj : o - off < bytes.length := by omega
        have hvo := hv _ hj
        rw [Nat.add_sub_cancel' hin.1] at hvo
        rw [hvo, show o % 1024 - off % 1024 = o - off by omega]
        exact (List.getElem_eq_getD 0).symm
      · rfl
    · have hout : ¬ (off ≤ o ∧ o < off + bytes.length) := fun hin => hor (by
        rw [show o / 1024 = off / 1024 by omega, hr])
      have hold : s.fileByte (s.inode ip).d o = some x := by
        rw [fileByte_eq_some]
        exact ⟨hne, by rw [← hx, storeBytes, setBlock_block_of_ne _ hor]⟩
      rw [if_neg hout, hold, Option.getD_some]

end Store

theorem Blocks.log (hB : s.Blocks (s.live ip)) {c : ℕ} : (s.log c).Blocks ((s.log c).live ip) :=
  ⟨hB.ok, hB.owned⟩

theorem Wrote.log {lo hi : ℕ} (h : Wrote ip lo hi v s s') (c : ℕ) : Wrote ip lo hi v s (s'.log c) :=
  ⟨h.sb, h.op, h.others, h.self, h.files, h.kept, h.fresh, h.free, h.taken, h.data, h.there, h.bytes⟩

/-! ## The loop of writei -/

/-- The bytes that `writei` writes at offsets from `off` on. -/
def srcByte (src : ℕ → Option UInt8) (off o : ℕ) : UInt8 :=
  (src (o - off)).getD 0

/-- The loop of `writei` has gone from `tot` to `k`, and has stored `j` more bytes of a copy that failed. -/
structure Stored (ip : InodeId) (src : ℕ → Option UInt8) (off n tot k j : ℕ) (s s' : Fs) : Prop where
  blocks : s'.Blocks (s'.live ip)
  le : tot ≤ k
  le_n : k + j ≤ n
  wrote : Wrote ip (off + tot) (off + k + j) (srcByte src off) s s'
  logged : ∀ c, c ∈ s.logged → c ∈ s'.logged
  clean : ∀ c, c ∉ s'.logged → (j ≠ 0 → c ≠ s'.fileBlock (s'.inode ip).d ((off + k) / 1024)) → s'.block c = s.block c
  part : (off + k) % 1024 + j < 1024
  reads : ∀ i, tot ≤ i → i < k + j → src i ≠ none
  stop : (k = n ∨ j = 0 ∧ s'.fileBlock (s'.inode ip).d ((off + k) / 1024) = 0 ∧ ∀ c, c < s.sb.size → s'.free c = false) ∨
    k + j < n ∧ src (k + j) = none

namespace Stored

variable {src : ℕ → Option UInt8} {n tot k j : ℕ} {s₁ : Fs}

theorem refl (hB : s.Blocks (s.live ip)) : Stored ip src off n n n 0 s s where
  blocks := hB
  le := le_rfl
  le_n := le_rfl
  wrote := .refl ip _ _ s
  logged _ hc := hc
  clean _ _ _ := rfl
  part := Nat.mod_lt _ (by decide)
  reads i hlo hhi := absurd hhi (Nat.not_lt.mpr hlo)
  stop := Or.inl (Or.inl rfl)

/-- There was no block. -/
theorem of_full (hm : Bmapped ip ((off + tot) / 1024) r s s') (h0 : r = 0) (htot : tot < n) :
    Stored ip src off n tot tot 0 s s' where
  blocks := hm.blocks
  le := le_rfl
  le_n := Nat.le_of_lt htot
  wrote := hm.wrote _ _
  logged := hm.logged
  clean c hc _ := hm.clean c hc
  part := Nat.mod_lt _ (by decide)
  reads i hlo hhi := absurd hhi (Nat.not_lt.mpr hlo)
  stop := Or.inl (Or.inr ⟨rfl, hm.result.trans h0, hm.full h0⟩)

section Step

variable (hm : Bmapped ip ((off + tot) / 1024) r s s₁) (h0 : r ≠ 0)
  (hlen : bytes.length ≤ min (n - tot) (1024 - (off + tot) % 1024)) (hreads : Reads src tot bytes)
include hm h0 hlen hreads

theorem wrote_store : Wrote ip (off + tot) (off + tot + bytes.length) (srcByte src off) s₁
    (s₁.storeBytes r (off + tot) bytes) := by
  refine storeBytes_wrote hm.blocks hm.result h0 (by omega) fun i hi => ?_
  rw [srcByte, show off + tot + i - off = tot + i by omega, hreads.get hi, Option.getD_some]

theorem wrote_copy : Wrote ip (off + tot) (off + tot + bytes.length) (srcByte src off) s
    (s₁.storeBytes r (off + tot) bytes) :=
  (hm.wrote (off + tot) _).trans (wrote_store hm h0 hlen hreads) le_rfl (Nat.le_add_right _ _)

/-- A block has been found, and then a part of a copy has been stored in it, if anything. -/
theorem of_part (hpart : bytes.length < min (n - tot) (1024 - (off + tot) % 1024))
    (hnone : src (tot + bytes.length) = none) :
    Stored ip src off n tot tot bytes.length s (s₁.storeBytes r (off + tot) bytes) where
  blocks := storeBytes_blocks hm.blocks hm.result h0
  le := le_rfl
  le_n := by omega
  wrote := wrote_copy hm h0 hlen hreads
  logged := hm.logged
  clean c hc hne := by
    rw [storeBytes_fileBlock hm.blocks hm.result h0, hm.result] at hne
    refine Eq.trans ?_ (hm.clean c hc)
    by_cases hcr : c = r
    · have hnil : bytes = [] := by
        by_contra hnil
        exact hne (fun h => hnil (List.length_eq_zero_iff.mp h)) hcr
      rw [hcr, hnil, storeBytes, setBlock_block_self]
      rfl
    · exact setBlock_block_of_ne _ hcr
  part := by omega
  reads i hlo hhi := hreads.ne_none hlo hhi
  stop := Or.inr ⟨by omega, hnone⟩

/-- A block has been found and a copy stored in it, and then come the other ones. -/
theorem step
    (h : Stored ip src off n (tot + bytes.length) k j ((s₁.storeBytes r (off + tot) bytes).log r) s') :
    Stored ip src off n tot k j s s' := by
  have hw := (wrote_copy hm h0 hlen hreads).log r
  have hle := h.le
  have hlogged : ∀ c, c ∈ s.logged → c ∈ ((s₁.storeBytes r (off + tot) bytes).log r).logged := fun c hc =>
    List.mem_insert_of_mem (hm.logged c hc)
  refine ⟨h.blocks, by omega, h.le_n, ?_, ?_, fun c hc hne => ?_, h.part, fun i hlo hhi => ?_, hw.sb ▸ h.stop⟩
  · have hrest := h.wrote
    rw [← Nat.add_assoc] at hrest
    exact hw.trans hrest (by omega) (by omega)
  · exact fun c hc => h.logged c (hlogged c hc)
  · have hc' : c ∉ ((s₁.storeBytes r (off + tot) bytes).log r).logged := fun hmem => hc (h.logged c hmem)
    rw [log_logged, List.mem_insert_iff, not_or] at hc'
    rw [h.clean c hc hne, log_block, storeBytes, setBlock_block_of_ne _ hc'.1]
    exact hm.clean c hc'.2
  · by_cases hi : i < tot + bytes.length
    · exact hreads.ne_none hlo hi
    · exact h.reads i (Nat.le_of_not_lt hi) hhi

end Step

end Stored

end Fs

open Fs

variable {s : Fs} {ip : InodeId} {src : ℕ → Option UInt8} {off n : ℕ}

theorem writeiFrom_ends (hoff : off + n ≤ 274432) (fuel : ℕ) : ∀ {s : Fs} {tot : ℕ}, s.Blocks (s.live ip) →
    0 < s.outstanding → tot ≤ n → n ≤ tot + fuel → Ends (writeiFrom ip src n fuel tot (off + tot)) s fun r s' =>
      r.2 = off + r.1 ∧ ∃ j, Stored ip src off n tot r.1 j s s' := by
  induction fuel with
  | zero =>
    intro s tot hB hop htot hfuel
    obtain rfl : tot = n := by omega
    exact .pure ⟨rfl, 0, .refl hB⟩
  | succ fuel ih =>
    intro s tot hB hop htot hfuel
    rw [writeiFrom]
    by_cases hlt : tot < n
    · rw [if_pos hlt]
      refine .bind (bmap_ends hB (fun _ _ => hop) (show (off + tot) / 1024 < 268 by omega)) fun r s₁ hm => ?_
      by_cases h0 : r = 0
      · rw [if_pos h0]
        exact .pure ⟨rfl, 0, .of_full hm h0 hlt⟩
      · rw [if_neg h0]
        obtain ⟨hreads, hstop⟩ := fetch_spec src (min (n - tot) (1024 - (off + tot) % 1024)) tot
        obtain ⟨x, hx⟩ : ∃ x, fetch src (min (n - tot) (1024 - (off + tot) % 1024)) tot = x := ⟨_, rfl⟩
        rw [hx] at hreads hstop
        obtain ⟨ok, bytes⟩ := x
        have hfetch : fetch src (min (n - tot) (BSIZE - (off + tot) % BSIZE)) tot = (ok, bytes) := hx
        dsimp only
        rw [hfetch]
        refine .get_bind (bstore_bind ?_)
        cases ok with
        | false =>
          obtain ⟨hpart, hnone⟩ := hstop
          exact .pure ⟨rfl, _, .of_part hm h0 (Nat.le_of_lt hpart) hreads hpart hnone⟩
        | true =>
          have hlen : bytes.length = min (n - tot) (1024 - (off + tot) % 1024) := hstop
          have hpos : (off + tot) % 1024 < 1024 := Nat.mod_lt _ (by decide)
          have hop₁ : 0 < s₁.outstanding := (hm.wrote 0 fun _ => 0).op ▸ hop
          refine logWrite_bind hop₁ ?_
          change Ends (writeiFrom ip src n fuel (tot + min (n - tot) (1024 - (off + tot) % 1024))
            (off + tot + min (n - tot) (1024 - (off + tot) % 1024))) ((s₁.storeBytes r (off + tot) bytes).log r) _
          rw [← hlen, Nat.add_assoc off]
          have hB' : ((s₁.storeBytes r (off + tot) bytes).log r).Blocks
              (((s₁.storeBytes r (off + tot) bytes).log r).live ip) :=
            (storeBytes_blocks hm.blocks hm.result h0).log
          refine (ih hB' hop₁ (by omega) (by omega)).mono fun x s' hx => ?_
          obtain ⟨hx, j, h⟩ := hx
          exact ⟨hx, j, h.step hm h0 (Nat.le_of_eq hlen) hreads⟩
    · rw [if_neg hlt]
      obtain rfl : tot = n := by omega
      exact .pure ⟨rfl, 0, .refl hB⟩

/-! ## The end of writei -/

namespace Fs

variable {s s' : Fs} {ip jp : InodeId} {off : ℕ} {D : ℕ → Dinode} {d : Dinode}

/-- The end of the file is moved up to `off`. -/
def grow (s : Fs) (ip : InodeId) (off : ℕ) : Fs :=
  if off > (s.inode ip).d.size then
    s.setInode ip { s.inode ip with d := { (s.inode ip).d with size := off } }
  else s

theorem grow_eq (s : Fs) (ip : InodeId) (off : ℕ) : s.grow ip off = s.setInode ip
    { s.inode ip with d := { (s.inode ip).d with size := max (s.inode ip).d.size off } } := by
  rw [grow]
  split_ifs with h
  · rw [Nat.max_eq_right (Nat.le_of_lt h)]
  · rw [Nat.max_eq_left (Nat.le_of_not_lt h), setInode, Function.update_eq_self]

section Same

variable (h : ∀ k, s.slotAt d k ≠ 0 → s'.block (s.slotAt d k) = s.block (s.slotAt d k))
include h

/-- The blocks of an inode have not changed. -/
theorem slotAt_same (k : FileSlot) : s'.slotAt d k = s.slotAt d k :=
  slotAt_congr (fun h0 => h .indirect h0) k

theorem fileByte_same (o : ℕ) : s'.fileByte d o = s.fileByte d o := by
  have hblock : s'.fileBlock d (o / 1024) = s.fileBlock d (o / 1024) := by
    rw [fileBlock, fileBlock, slotAt_same h]
  rw [fileByte, fileByte, hblock]
  split_ifs with h0
  · rfl
  · have hlt := lt_of_fileBlock h0
    rw [fileBlock_of_lt hlt] at h0 ⊢
    rw [h _ h0]

end Same

/-- The end of the file is moved, and the inode is stored. -/
def finish (s : Fs) (ip : InodeId) (off : ℕ) : Fs :=
  (s.grow ip off).sync ip

theorem finish_inode (s : Fs) (ip : InodeId) (off : ℕ) : (s.finish ip off).inode ip =
    { s.inode ip with d := { (s.inode ip).d with size := max (s.inode ip).d.size off } } := by
  rw [finish, sync_inode, grow_eq, setInode_inode_self]

theorem finish_inode_of_ne (h : jp ≠ ip) : (s.finish ip off).inode jp = s.inode jp := by
  rw [finish, sync_inode, grow_eq, setInode_inode_of_ne _ h]

@[simp] theorem finish_sb : (s.finish ip off).sb = s.sb := by
  rw [finish, sync_sb, grow_eq, setInode_sb]

@[simp] theorem finish_outstanding : (s.finish ip off).outstanding = s.outstanding := by
  rw [finish, sync_outstanding, grow_eq, setInode_outstanding]

/-- The slots do not depend on the size. -/
theorem slotAt_size (s : Fs) (d : Dinode) (n : ℕ) (k : FileSlot) : s.slotAt { d with size := n } k = s.slotAt d k := by
  cases k <;> rfl

theorem fileByte_size (s : Fs) (d : Dinode) (n o : ℕ) : s.fileByte { d with size := n } o = s.fileByte d o := by
  rw [fileByte, fileByte, fileBlock, fileBlock, slotAt_size]

theorem Blocks.fits (hB : s.Blocks (s.live ip)) (hsize : (s.inode ip).d.size < 4294967296) : (s.inode ip).d.Fits := by
  refine ⟨hsize, fun k => ?_⟩
  by_cases h0 : (s.inode ip).d.addrs k = 0
  · rw [h0]
    exact Nat.succ_pos _
  · have hrange := hB.range (k := .addr k) h0
    exact Nat.lt_trans hrange.2 (Nat.lt_trans hB.ok.lt (by decide))

section Finish

variable (hB : s.Blocks (s.live ip)) (hi : (s.inode ip).inum < s.sb.ninodes)
include hB hi

theorem finish_block {c : ℕ} (hc : s.sb.bmapstart ≤ c) : (s.finish ip off).block c = s.block c := by
  rw [finish, grow_eq, sync_block]
  · rfl
  · exact hB.ok
  · rw [setInode_inode_self]
    exact hi
  · exact hc

theorem finish_free (c : ℕ) : (s.finish ip off).free c = s.free c :=
  free_congr finish_sb (finish_block hB hi (Nat.le_add_left _ _))

theorem finish_files (hsize : max (s.inode ip).d.size off < 4294967296) :
    (s.finish ip off).files = Function.update s.files (s.inode ip).inum ((s.finish ip off).inode ip).d := by
  rw [finish_inode, finish, grow_eq, sync_files]
  · rw [setInode_inode_self, setInode_files]
  · exact hB.ok
  · rw [setInode_inode_self]
    exact hi
  · rw [setInode_inode_self]
    exact ⟨hsize, (hB.fits (by omega)).2⟩

theorem finish_data (off i : ℕ) (k : FileSlot) (h0 : s.slotAt (s.live ip i) k ≠ 0) :
    (s.finish ip off).block (s.slotAt (s.live ip i) k) = s.block (s.slotAt (s.live ip i) k) := by
  obtain ⟨hlo, hlt⟩ := hB.owned.range (i, k) h0
  exact finish_block hB hi (bmapstart_le hB.ok hlt hlo)

variable (hsize : max (s.inode ip).d.size off < 4294967296)
include hsize

theorem finish_slotAt (i : ℕ) (k : FileSlot) :
    (s.finish ip off).slotAt ((s.finish ip off).files i) k = s.slotAt (s.live ip i) k := by
  rw [← slotAt_same (finish_data hB hi off i), finish_files hB hi hsize]
  by_cases h : i = (s.inode ip).inum
  · rw [h, Function.update_self, live_self, finish_inode, slotAt_size]
  · rw [Function.update_of_ne h, live, Function.update_of_ne h]

theorem finish_fileByte (i o : ℕ) :
    (s.finish ip off).fileByte ((s.finish ip off).files i) o = s.fileByte (s.live ip i) o := by
  rw [← fileByte_same (finish_data hB hi off i), finish_files hB hi hsize]
  by_cases h : i = (s.inode ip).inum
  · rw [h, Function.update_self, live_self, finish_inode, fileByte_size]
  · rw [Function.update_of_ne h, live, Function.update_of_ne h]

theorem finish_blocks : (s.finish ip off).Blocks (s.finish ip off).files := by
  have hsb : (s.finish ip off).sb = s.sb := finish_sb
  refine ⟨hsb ▸ hB.ok, ?_⟩
  rw [hsb]
  exact hB.owned.congr (fun c _ => finish_free hB hi c) fun x => finish_slotAt hB hi hsize x.1 x.2

end Finish

end Fs

theorem writei_ends (hB : s.Blocks (s.live ip)) (hop : 0 < s.outstanding) (hoff : off ≤ (s.inode ip).d.size) (hn : off + n ≤ 274432) :
    Ends (writei ip src off n) s fun r s' => ∃ (k j : ℕ) (s₁ : Fs), r = k ∧ Stored ip src off n 0 k j s s₁ ∧
      s' = s₁.finish ip (off + k) := by
  have hmod : (off + n) % 4294967296 = off + n := Nat.mod_eq_of_lt (by omega)
  rw [writei]
  refine .get_bind ?_
  dsimp only
  rw [hmod, if_neg (by omega), if_neg (by change ¬ off + n > 274432; omega)]
  refine .bind (writeiFrom_ends hn n hB hop (Nat.zero_le n) (by omega)) fun x s₁ h => ?_
  obtain ⟨k, off'⟩ := x
  obtain ⟨hoff', j, h⟩ := h
  dsimp only at hoff' h
  subst hoff'
  have hop₁ : 0 < (s₁.grow ip (off + k)).outstanding := by
    rw [grow_eq, setInode_outstanding, h.wrote.op]
    exact hop
  exact .modify_bind (.bind (iupdate_ends hop₁) fun _ s' hs' => .pure ⟨k, j, s₁, rfl, h, hs'⟩)

/-- The errors of `writei`. -/
theorem writei_error (h : off > (s.inode ip).d.size ∨ (off + n) % 4294967296 < off ∨
    (off + n) % 4294967296 > MAXFILE * BSIZE) : Ends (writei ip src off n) s fun r s' => r = -1 ∧ s' = s := by
  rw [writei]
  refine .get_bind ?_
  dsimp only
  by_cases hfirst : off > (s.inode ip).d.size ∨ (off + n) % 4294967296 < off
  · rw [if_pos hfirst]
    exact .pure ⟨rfl, rfl⟩
  · rw [if_neg hfirst, if_pos ((or_assoc.mpr h).resolve_left hfirst)]
    exact .pure ⟨rfl, rfl⟩

end Xv6
