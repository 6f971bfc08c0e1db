import Xv6.FsView
import Xv6.LogInv
import Xv6.Ownership

/-!
# The blocks of files

The slots of an inode hold the numbers of its blocks : twelve direct ones, the indirect block, and the entries of
the indirect block (`FileSlot`). `Fs.Blocks` says that a data block in a slot is used, and is in no other slot of any inode.

`bmap` fills empty slots with new blocks, at most the indirect block and one block of the file. What one such step does is
`Fs.Fill`; from it follow that `Fs.Blocks` is kept, that no byte of a file changes except that new blocks are zeros
(`Fs.Wrote`), and that what has changed has been passed to log_write (`Fs.Clean`).
-/

namespace Xv6

/-! ## Slots -/

/-- The places of an inode that hold block numbers. -/
inductive FileSlot
  | addr (k : Fin 13)
  | entry (j : Fin 256)
deriving DecidableEq

/-- The slot of the indirect block. -/
abbrev FileSlot.indirect : FileSlot :=
  .addr (Fin.last 12)

/-- The slot of block `bn` of a file. -/
def fileSlot (bn : ℕ) : FileSlot :=
  if h : bn < 12 then .addr ⟨bn, Nat.lt_succ_of_lt h⟩ else .entry ⟨(bn - 12) % 256, Nat.mod_lt _ (Nat.succ_pos 255)⟩

theorem fileSlot_ne_indirect (bn : ℕ) : fileSlot bn ≠ .indirect := by
  unfold fileSlot
  split_ifs with h
  · intro heq
    have hval := congrArg Fin.val (FileSlot.addr.inj heq)
    exact absurd hval (Nat.ne_of_lt h)
  · exact FileSlot.noConfusion

theorem fileSlot_inj {bn bn' : ℕ} (h : bn < 268) (h' : bn' < 268) (heq : fileSlot bn = fileSlot bn') : bn = bn' := by
  unfold fileSlot at heq
  split_ifs at heq with h₁ h₂ h₂
  · exact congrArg Fin.val (FileSlot.addr.inj heq)
  · have hval := congrArg Fin.val (FileSlot.entry.inj heq)
    dsimp only at hval
    omega

namespace Fs

variable {s s' s₁ : Fs} {d : Dinode} {D : ℕ → Dinode} {b c : ℕ} {k l : FileSlot} {ip : InodeId}

/-- What a slot of an inode holds. -/
def slotAt (s : Fs) (d : Dinode) : FileSlot → ℕ
  | .addr k => d.addrs k
  | .entry j => if d.addrs (Fin.last 12) = 0 then 0 else word (s.block (d.addrs (Fin.last 12))) j

/-- The number of block `bn` of a file, 0 if it has none. -/
def fileBlock (s : Fs) (d : Dinode) (bn : ℕ) : ℕ :=
  if bn < 268 then s.slotAt d (fileSlot bn) else 0

/-- The byte at an offset of a file, if it has a block there. -/
def fileByte (s : Fs) (d : Dinode) (o : ℕ) : Option UInt8 :=
  if s.fileBlock d (o / 1024) = 0 then none else some ((s.block (s.fileBlock d (o / 1024))).byte (o % 1024))

theorem slotAt_entry_of_zero (h : d.addrs (Fin.last 12) = 0) (j : Fin 256) : s.slotAt d (.entry j) = 0 :=
  if_pos h

theorem slotAt_entry (h : d.addrs (Fin.last 12) ≠ 0) (j : Fin 256) :
    s.slotAt d (.entry j) = word (s.block (d.addrs (Fin.last 12))) j :=
  if_neg h

theorem slotAt_congr (h : d.addrs (Fin.last 12) ≠ 0 → s'.block (d.addrs (Fin.last 12)) = s.block (d.addrs (Fin.last 12)))
    (k : FileSlot) : s'.slotAt d k = s.slotAt d k := by
  cases k with
  | addr k => rfl
  | entry j =>
    rw [slotAt, slotAt]
    split_ifs with h0
    · rfl
    · rw [h h0]

/-- A data block is in at most one slot of one of the inodes `D`, and then it is used. -/
structure Blocks (s : Fs) (D : ℕ → Dinode) : Prop where
  ok : s.sb.Ok
  owned : Owned s.sb.datastart s.sb.size s.free fun x : ℕ × FileSlot => s.slotAt (D x.1) x.2

theorem Superblock.Ok.pos {sb : Superblock} (hok : sb.Ok) (hb : b < sb.size) : 0 < sb.datastart :=
  Nat.lt_of_le_of_lt (Nat.zero_le _) (hok.bitmap b hb)

/-- The inodes, with what `ip` has in memory. -/
def live (s : Fs) (ip : InodeId) : ℕ → Dinode :=
  Function.update s.files (s.inode ip).inum (s.inode ip).d

@[simp] theorem live_self (s : Fs) (ip : InodeId) : s.live ip (s.inode ip).inum = (s.inode ip).d :=
  Function.update_self ..

section Blocks

variable (hB : s.Blocks (s.live ip))
include hB

theorem Blocks.range (hk : s.slotAt (s.inode ip).d k ≠ 0) :
    s.sb.datastart ≤ s.slotAt (s.inode ip).d k ∧ s.slotAt (s.inode ip).d k < s.sb.size := by
  have h := hB.owned.range ((s.inode ip).inum, k)
  dsimp only at h
  rw [live_self] at h
  exact h hk

theorem Blocks.used (hk : s.slotAt (s.inode ip).d k ≠ 0) : s.free (s.slotAt (s.inode ip).d k) = false := by
  have h := hB.owned.used ((s.inode ip).inum, k)
  dsimp only at h
  rw [live_self] at h
  exact h hk

theorem Blocks.inj (heq : s.slotAt (s.inode ip).d k = s.slotAt (s.inode ip).d l) (hk : s.slotAt (s.inode ip).d k ≠ 0) :
    k = l := by
  have h := hB.owned.inj ((s.inode ip).inum, k) ((s.inode ip).inum, l)
  dsimp only at h
  rw [live_self] at h
  exact congrArg Prod.snd (h heq hk)

theorem Blocks.ne_zero (hb : s.free b = true) (hlt : b < s.sb.size) : b ≠ 0 :=
  Nat.ne_of_gt (Nat.lt_of_lt_of_le (Superblock.Ok.pos hB.ok hlt) (hB.owned.le_of_free hb hlt))

theorem Blocks.ne_of_free (hb : s.free b = true) (hlt : b < s.sb.size) (k : FileSlot) :
    s.slotAt (s.inode ip).d k ≠ b := by
  have h := hB.owned.ne_of_free hb (hB.ne_zero hb hlt) ((s.inode ip).inum, k)
  dsimp only at h
  rwa [live_self] at h

theorem Blocks.indirect_range (h0 : (s.inode ip).d.addrs (Fin.last 12) ≠ 0) :
    s.sb.datastart ≤ (s.inode ip).d.addrs (Fin.last 12) ∧ (s.inode ip).d.addrs (Fin.last 12) < s.sb.size :=
  hB.range (k := .indirect) h0

theorem Blocks.indirect_ne_of_free (hb : s.free b = true) (hlt : b < s.sb.size) :
    (s.inode ip).d.addrs (Fin.last 12) ≠ b :=
  hB.ne_of_free hb hlt .indirect

end Blocks

/-- A disk without files : its blocks are zeros, except those of the bitmap, which are all the same. The inodes in
memory are all `x`. -/
def blank (sb : Superblock) (bitmap : Block) (x : Inode) : Fs where
  sb := sb
  block b := if sb.bmapstart ≤ b ∧ b < sb.datastart then bitmap else Bytes.zero BSIZE
  logged := []
  outstanding := 1
  inode _ := x

theorem blank_free {sb : Superblock} {bitmap : Block} {x : Inode} (hok : sb.Ok) (hb : b < sb.size) :
    (blank sb bitmap x).free b = bitFree bitmap (b % BPB) := by
  rw [free]
  exact congrArg (bitFree · (b % BPB)) (if_pos ⟨Nat.le_add_left _ _, hok.bitmap b hb⟩)

theorem blank_files {sb : Superblock} {bitmap : Block} {x : Inode} (hok : sb.Ok) (i : ℕ) :
    (blank sb bitmap x).files i = .zero := by
  rw [files]
  split_ifs with hi
  · have hblock : (blank sb bitmap x).block (sb.IBLOCK i) = Bytes.zero BSIZE :=
      if_neg fun h => absurd (hok.inodes i hi) (Nat.not_lt.mpr h.1)
    change dinodeAt ((blank sb bitmap x).block (sb.IBLOCK i)) (i % IPB) = .zero
    rw [hblock, dinodeAt]
    simp only [Bytes.getLE_zero]
    rfl
  · rfl

/-- No slot of a disk without files has a block. -/
theorem blank_blocks {sb : Superblock} {bitmap : Block} {x : Inode} (hok : sb.Ok)
    (hlow : ∀ b, b < sb.datastart → bitFree bitmap (b % BPB) = false) (hx : ∀ k, x.d.addrs k = 0) (ip : InodeId) :
    (blank sb bitmap x).Blocks ((blank sb bitmap x).live ip) := by
  have hslot : ∀ i k, (blank sb bitmap x).slotAt ((blank sb bitmap x).live ip i) k = 0 := by
    intro i k
    have haddrs : ∀ k, ((blank sb bitmap x).live ip i).addrs k = 0 := by
      intro k
      by_cases hi : i = x.inum
      · rw [hi]
        exact (congrArg (fun d : Dinode => d.addrs k) (live_self (blank sb bitmap x) ip)).trans (hx k)
      · have hlive : (blank sb bitmap x).live ip i = .zero := (Function.update_of_ne hi ..).trans (blank_files hok i)
        rw [hlive]
        rfl
    cases k with
    | addr k => exact haddrs k
    | entry j => exact slotAt_entry_of_zero (haddrs _) j
  refine ⟨hok, fun b hb hlt => ?_, fun k hk => absurd (hslot k.1 k.2) hk, fun k hk => absurd (hslot k.1 k.2) hk,
    fun k l _ hk => absurd (hslot k.1 k.2) hk⟩
  rw [blank_free hok hlt]
  exact hlow b hb

/-! ## Filling a slot -/

/-- The empty slot `k` of `ip` gets the block `b`, which was free. -/
structure Fill (ip : InodeId) (k : FileSlot) (b : ℕ) (s s' : Fs) : Prop where
  sb : s'.sb = s.sb
  op : s'.outstanding = s.outstanding
  others : ∀ jp, jp ≠ ip → s'.inode jp = s.inode jp
  self : ∃ addrs, s'.inode ip = { s.inode ip with d := { (s.inode ip).d with addrs := addrs } }
  files : s'.files = s.files
  empty : s.slotAt (s.inode ip).d k = 0
  lt : b < s.sb.size
  wasFree : s.free b = true
  free : ∀ c, c < s.sb.size → s'.free c = (s.free c && c != b)
  slot_self : s'.slotAt (s'.inode ip).d k = b
  slot : ∀ l, l ≠ k → s'.slotAt (s'.inode ip).d l = s.slotAt (s.inode ip).d l
  data : ∀ c, s.sb.datastart ≤ c → c ≠ b → c ≠ (s.inode ip).d.addrs (Fin.last 12) → s'.block c = s.block c
  zero : s'.block b = Bytes.zero BSIZE
  logged : ∀ c, c ∈ s.logged → c ∈ s'.logged
  clean : ∀ c, c ∉ s'.logged → s'.block c = s.block c

namespace Fill

theorem inum (h : Fill ip k b s s') : (s'.inode ip).inum = (s.inode ip).inum := by
  obtain ⟨addrs, h⟩ := h.self
  rw [h]

theorem live (h : Fill ip k b s s') : s'.live ip = Function.update (s.live ip) (s.inode ip).inum (s'.inode ip).d := by
  rw [Fs.live, Fs.live, h.files, h.inum, Function.update_idem]

theorem blocks (hB : s.Blocks (s.live ip)) (h : Fill ip k b s s') : s'.Blocks (s'.live ip) := by
  refine ⟨h.sb ▸ hB.ok, ?_⟩
  rw [h.sb, h.live]
  have hpos := Superblock.Ok.pos hB.ok h.lt
  have hb0 := hB.ne_zero h.wasFree h.lt
  refine hB.owned.fill (k := ((s.inode ip).inum, k)) hpos h.wasFree h.lt h.free ?_ ?_
  · dsimp only
    rw [Function.update_self, h.slot_self]
  · rintro ⟨i, l⟩ hne
    dsimp only
    by_cases hi : i = (s.inode ip).inum
    · rw [hi, Function.update_self, live_self]
      exact h.slot l fun hl => hne (by rw [hi, hl])
    · rw [Function.update_of_ne hi]
      refine slotAt_congr (fun h0 => ?_) l
      -- the indirect block of another inode is neither new nor the one of `ip`
      refine h.data _ (hB.owned.range (i, .indirect) h0).1 (hB.owned.ne_of_free h.wasFree hb0 (i, .indirect)) fun heq => hi ?_
      have hinj := hB.owned.inj (i, .indirect) ((s.inode ip).inum, .indirect) ?_ h0
      · exact congrArg Prod.fst hinj
      · dsimp only
        rw [live_self]
        exact heq

end Fill

/-! ## Writing a file -/

theorem fileBlock_of_lt {bn : ℕ} (h : bn < 268) : s.fileBlock d bn = s.slotAt d (fileSlot bn) :=
  if_pos h

theorem fileByte_eq_some {o : ℕ} {x : UInt8} : s.fileByte d o = some x ↔
    s.fileBlock d (o / 1024) ≠ 0 ∧ (s.block (s.fileBlock d (o / 1024))).byte (o % 1024) = x := by
  rw [fileByte]
  split_ifs with h
  · exact ⟨fun h => (by cases h), fun h' => absurd h h'.1⟩
  · rw [Option.some.injEq, and_iff_right h]

theorem fileByte_eq_none {o : ℕ} : s.fileByte d o = none ↔ s.fileBlock d (o / 1024) = 0 := by
  rw [fileByte]
  split_ifs with h
  · exact iff_of_true rfl h
  · exact ⟨fun h => (by cases h), fun h' => absurd h' h⟩

theorem lt_of_fileBlock {bn : ℕ} (h : s.fileBlock d bn ≠ 0) : bn < 268 := by
  by_contra hlt
  exact h (if_neg hlt)

/-- Empty slots of `ip` may have got blocks that were free, which are zeros; and the bytes of the file from `lo` up to `hi`
are `v`. Nothing else has changed. -/
structure Wrote (ip : InodeId) (lo hi : ℕ) (v : ℕ → UInt8) (s s' : Fs) : Prop where
  sb : s'.sb = s.sb
  op : s'.outstanding = s.outstanding
  others : ∀ jp, jp ≠ ip → s'.inode jp = s.inode jp
  self : ∃ addrs, s'.inode ip = { s.inode ip with d := { (s.inode ip).d with addrs := addrs } }
  files : s'.files = s.files
  kept : ∀ k, s.slotAt (s.inode ip).d k ≠ 0 → s'.slotAt (s'.inode ip).d k = s.slotAt (s.inode ip).d k
  fresh : ∀ k, s.slotAt (s.inode ip).d k = 0 → s'.slotAt (s'.inode ip).d k ≠ 0 →
    s.free (s'.slotAt (s'.inode ip).d k) = true ∧ s'.slotAt (s'.inode ip).d k < s.sb.size
  free : ∀ c, c < s.sb.size → s'.free c = true → s.free c = true
  taken : ∀ c, c < s.sb.size → s.free c = true → s'.free c = false → c ≠ 0 ∧ ∃ k, s'.slotAt (s'.inode ip).d k = c
  data : ∀ c, s.sb.datastart ≤ c → c < s.sb.size → s.free c = false → (∀ k, s.slotAt (s.inode ip).d k ≠ c) →
    s'.block c = s.block c
  there : ∀ o, lo ≤ o → o < hi → s'.fileByte (s'.inode ip).d o ≠ none
  bytes : ∀ o x, s'.fileByte (s'.inode ip).d o = some x →
    x = if lo ≤ o ∧ o < hi then v o else (s.fileByte (s.inode ip).d o).getD 0

namespace Wrote

variable {lo mid hi : ℕ} {v : ℕ → UInt8}

theorem refl (ip : InodeId) (lo : ℕ) (v : ℕ → UInt8) (s : Fs) : Wrote ip lo lo v s s where
  sb := rfl
  op := rfl
  others _ _ := rfl
  self := ⟨_, rfl⟩
  files := rfl
  kept _ _ := rfl
  fresh k h0 h := absurd h0 h
  free _ _ h := h
  taken c _ h h' := absurd (h.symm.trans h') Bool.true_eq_false.mp
  data _ _ _ _ _ := rfl
  there o hlo hhi := absurd hhi (Nat.not_lt.mpr hlo)
  bytes o x h := by
    rw [if_neg fun h => absurd h.2 (Nat.not_lt.mpr h.1), h]
    rfl

theorem inum (h : Wrote ip lo hi v s s') : (s'.inode ip).inum = (s.inode ip).inum := by
  obtain ⟨addrs, h⟩ := h.self
  rw [h]

theorem size (h : Wrote ip lo hi v s s') : (s'.inode ip).d.size = (s.inode ip).d.size := by
  obtain ⟨addrs, h⟩ := h.self
  rw [h]

theorem fileBlock (h : Wrote ip lo hi v s s') {bn : ℕ} (hbn : s.fileBlock (s.inode ip).d bn ≠ 0) :
    s'.fileBlock (s'.inode ip).d bn = s.fileBlock (s.inode ip).d bn := by
  have hlt := lt_of_fileBlock hbn
  rw [fileBlock_of_lt hlt] at hbn ⊢
  rw [fileBlock_of_lt hlt, h.kept _ hbn]

theorem fileByte_none (h : Wrote ip lo hi v s s') {o : ℕ} (ho : s'.fileByte (s'.inode ip).d o = none) :
    s.fileByte (s.inode ip).d o = none := by
  rw [fileByte_eq_none] at ho ⊢
  by_contra hne
  exact hne ((h.fileBlock hne).symm.trans ho)

theorem trans (h₁ : Wrote ip lo mid v s s₁) (h₂ : Wrote ip mid hi v s₁ s') (hlo : lo ≤ mid) (hhi : mid ≤ hi) :
    Wrote ip lo hi v s s' where
  sb := h₂.sb.trans h₁.sb
  op := h₂.op.trans h₁.op
  others jp hjp := (h₂.others jp hjp).trans (h₁.others jp hjp)
  self := by
    obtain ⟨addrs₁, hself₁⟩ := h₁.self
    obtain ⟨addrs₂, hself₂⟩ := h₂.self
    exact ⟨addrs₂, by rw [hself₂, hself₁]⟩
  files := h₂.files.trans h₁.files
  kept k hk := by
    have hk₁ := h₁.kept k hk
    rw [h₂.kept k (by rwa [hk₁]), hk₁]
  fresh k h0 hk := by
    by_cases hk₁ : s₁.slotAt (s₁.inode ip).d k = 0
    · obtain ⟨hfree, hlt⟩ := h₂.fresh k hk₁ hk
      rw [h₁.sb] at hlt
      exact ⟨h₁.free _ hlt hfree, hlt⟩
    · rw [h₂.kept k hk₁]
      exact h₁.fresh k h0 hk₁
  free c hc hfree := h₁.free c hc (h₂.free c (by rwa [h₁.sb]) hfree)
  taken c hc hfree hused := by
    cases hfree₁ : s₁.free c with
    | true => exact h₂.taken c (by rwa [h₁.sb]) hfree₁ hused
    | false =>
      obtain ⟨h0, k, rfl⟩ := h₁.taken c hc hfree hfree₁
      exact ⟨h0, k, h₂.kept k h0⟩
  data c hlo hc hused hslot := by
    have hused₁ : s₁.free c = false := by
      by_contra hfree
      rw [Bool.not_eq_false] at hfree
      rw [h₁.free c hc hfree] at hused
      cases hused
    rw [h₂.data c (by rwa [h₁.sb]) (by rwa [h₁.sb]) hused₁ ?_, h₁.data c hlo hc hused hslot]
    intro k hk
    by_cases h0 : s.slotAt (s.inode ip).d k = 0
    · by_cases hk0 : s₁.slotAt (s₁.inode ip).d k = 0
      · exact hslot k (h0.trans (hk0.symm.trans hk))
      · have hfree := (h₁.fresh k h0 hk0).1
        rw [hk, hused] at hfree
        cases hfree
    · exact hslot k ((h₁.kept k h0).symm.trans hk)
  there o hlo' hhi' := by
    obtain hmid | hmid := Nat.lt_or_ge o mid
    · intro hnone
      exact h₁.there o hlo' hmid (h₂.fileByte_none hnone)
    · exact h₂.there o hmid hhi'
  bytes o x hx := by
    rw [h₂.bytes o x hx]
    by_cases hin₂ : mid ≤ o ∧ o < hi
    · rw [if_pos hin₂, if_pos ⟨Nat.le_trans hlo hin₂.1, hin₂.2⟩]
    · rw [if_neg hin₂]
      cases hy : s₁.fileByte (s₁.inode ip).d o with
      | some y =>
        rw [Option.getD_some, h₁.bytes o y hy]
        refine if_congr ?_ rfl rfl
        omega
      | none =>
        have hout : ¬ (lo ≤ o ∧ o < hi) := fun h => h₁.there o h.1 (by omega) hy
        rw [if_neg hout, h₁.fileByte_none hy]

end Wrote

theorem Fill.wrote (hB : s.Blocks (s.live ip)) (h : Fill ip k b s s') (lo : ℕ) (v : ℕ → UInt8) :
    Wrote ip lo lo v s s' := by
  refine ⟨h.sb, h.op, h.others, h.self, h.files, fun l hl => ?_, fun l h0 hl => ?_, fun c hc hfree => ?_,
    fun c hc hfree hused => ?_, fun c hlo hc hused hslot => ?_, fun o hlo hhi => absurd hhi (Nat.not_lt.mpr hlo), fun o x hx => ?_⟩
  · exact h.slot l fun hlk => hl (hlk ▸ h.empty)
  · obtain rfl : l = k := by
      by_contra hlk
      exact hl ((h.slot l hlk).trans h0)
    rw [h.slot_self]
    exact ⟨h.wasFree, h.lt⟩
  · rw [h.free c hc, Bool.and_eq_true] at hfree
    exact hfree.1
  · rw [h.free c hc, hfree, Bool.true_and, bne_eq_false_iff_eq] at hused
    rw [hused]
    exact ⟨hB.ne_zero h.wasFree h.lt, k, h.slot_self⟩
  · refine h.data c hlo ?_ fun heq => hslot .indirect heq.symm
    rintro rfl
    rw [h.wasFree] at hused
    cases hused
  · rw [if_neg fun h => absurd h.2 (Nat.not_lt.mpr h.1)]
    obtain ⟨hne, hx⟩ := fileByte_eq_some.mp hx
    have hlt := lt_of_fileBlock hne
    rw [fileBlock_of_lt hlt] at hne hx
    by_cases hk : fileSlot (o / 1024) = k
    · have hnone : s.fileByte (s.inode ip).d o = none := by
        rw [fileByte_eq_none, fileBlock_of_lt hlt, hk, h.empty]
      rw [hnone, ← hx, hk, h.slot_self, h.zero]
      exact Bytes.byte_zero _
    · rw [h.slot _ hk] at hne hx
      have hsame : s'.block (s.slotAt (s.inode ip).d (fileSlot (o / 1024))) =
          s.block (s.slotAt (s.inode ip).d (fileSlot (o / 1024))) := by
        refine h.data _ (hB.range hne).1 (hB.ne_of_free h.wasFree h.lt _) fun heq => ?_
        exact fileSlot_ne_indirect _ (hB.inj (l := .indirect) heq hne)
      have hsome : s.fileByte (s.inode ip).d o = some x := by
        rw [fileByte_eq_some, fileBlock_of_lt hlt]
        exact ⟨hne, by rw [← hsame, hx]⟩
      rw [hsome]
      rfl

/-! ## Logging -/

/-- What has changed has been passed to log_write. -/
def Clean (s s' : Fs) : Prop :=
  ∀ c, c ∉ s'.logged → s'.block c = s.block c

theorem Clean.trans (h₁ : Clean s s₁) (h₂ : Clean s₁ s') (hmono : ∀ c, c ∈ s₁.logged → c ∈ s'.logged) : Clean s s' :=
  fun c hc => (h₂ c hc).trans (h₁ c fun hmem => hc (hmono c hmem))

/-! ## bmap -/

/-- A block number of `ip` in memory is set. -/
def withAddr (s : Fs) (ip : InodeId) (k : Fin 13) (b : ℕ) : Fs :=
  s.setInode ip { s.inode ip with d := { (s.inode ip).d with addrs := Function.update (s.inode ip).d.addrs k b } }

theorem withAddr_inode (s : Fs) (ip : InodeId) (k : Fin 13) (b : ℕ) : (s.withAddr ip k b).inode ip =
    { s.inode ip with d := { (s.inode ip).d with addrs := Function.update (s.inode ip).d.addrs k b } } :=
  setInode_inode_self ..

theorem withAddr_self (s : Fs) (ip : InodeId) (k : Fin 13) (b : ℕ) : ((s.withAddr ip k b).inode ip).d.addrs k = b := by
  rw [withAddr_inode]
  dsimp only
  rw [Function.update_self]

theorem withAddr_of_ne (s : Fs) (ip : InodeId) {k l : Fin 13} (b : ℕ) (h : l ≠ k) :
    ((s.withAddr ip k b).inode ip).d.addrs l = (s.inode ip).d.addrs l := by
  rw [withAddr_inode]
  dsimp only
  rw [Function.update_of_ne h]

theorem mem_alloc_logged : c ∈ (s.alloc b).logged ↔ c ∈ s.logged ∨ c = b ∨ c = s.sb.BBLOCK b := by
  rw [alloc, log_logged, setBlock_logged, log_logged, setBlock_logged, List.mem_insert_iff, List.mem_insert_iff,
    or_comm (b := c ∈ s.logged), or_left_comm]

theorem alloc_clean (h : c ∉ (s.alloc b).logged) : (s.alloc b).block c = s.block c := by
  rw [mem_alloc_logged, not_or, not_or] at h
  exact (setBlock_block_of_ne _ h.2.1).trans (setBlock_block_of_ne _ h.2.2)

section Fill

variable (hB : s.Blocks (s.live ip)) (hb : s.free b = true) (hlt : b < s.sb.size)
include hB hb hlt

theorem fill_addr {k : Fin 13} (hk : (s.inode ip).d.addrs k = 0) :
    Fill ip (.addr k) b s ((s.alloc b).withAddr ip k b) := by
  have hlo := hB.owned.le_of_free hb hlt
  refine ⟨rfl, rfl, fun jp hjp => setInode_inode_of_ne _ hjp, ⟨_, withAddr_inode ..⟩, ?_, hk, hlt, hb, fun c hc => ?_,
    withAddr_self .., fun l hl => ?_, fun c hc hcb _ => ?_, ?_, fun c hc => mem_alloc_logged.mpr (Or.inl hc), fun c hc => ?_⟩
  · rw [withAddr, setInode_files, alloc_files hB.ok hlt hlo]
  · rw [withAddr, setInode_free, alloc_free hB.ok hlt hlo hc]
  · cases l with
    | addr l => exact withAddr_of_ne _ _ _ fun h => hl (congrArg FileSlot.addr h)
    | entry j =>
      by_cases hk12 : k = Fin.last 12
      · -- the new indirect block is empty
        subst hk12
        have hind := withAddr_self (s.alloc b) ip (Fin.last 12) b
        rw [slotAt_entry_of_zero hk, slotAt_entry (by rw [hind]; exact hB.ne_zero hb hlt), hind, withAddr, setInode_block,
          alloc_block_self hB.ok hlt]
        exact Bytes.getLE_zero _ _
      · have hind := withAddr_of_ne (s.alloc b) ip b (Ne.symm hk12)
        rw [alloc_inode] at hind
        by_cases h0 : (s.inode ip).d.addrs (Fin.last 12) = 0
        · rw [slotAt_entry_of_zero h0, slotAt_entry_of_zero (hind.trans h0)]
        · rw [slotAt_entry h0, slotAt_entry (by rwa [hind]), hind, withAddr, setInode_block,
            alloc_block hB.ok hlt (hB.indirect_range h0).1 (hB.indirect_ne_of_free hb hlt)]
  · rw [withAddr, setInode_block, alloc_block hB.ok hlt hc hcb]
  · rw [withAddr, setInode_block, alloc_block_self hB.ok hlt]
  · rw [withAddr, setInode_logged] at hc
    rw [withAddr, setInode_block, alloc_clean hc]

theorem fill_entry {j : Fin 256} (h0 : (s.inode ip).d.addrs (Fin.last 12) ≠ 0)
    (hj : word (s.block ((s.inode ip).d.addrs (Fin.last 12))) j = 0) :
    Fill ip (.entry j) b s (((s.alloc b).setBlock ((s.inode ip).d.addrs (Fin.last 12))
      (setWord ((s.alloc b).block ((s.inode ip).d.addrs (Fin.last 12))) j b)).log
        ((s.inode ip).d.addrs (Fin.last 12))) := by
  have hlo := hB.owned.le_of_free hb hlt
  have hrange := hB.indirect_range h0
  have hab := hB.indirect_ne_of_free hb hlt
  set a := (s.inode ip).d.addrs (Fin.last 12) with ha
  have hblock : (s.alloc b).block a = s.block a := alloc_block hB.ok hlt hrange.1 hab
  rw [hblock]
  refine ⟨rfl, rfl, fun _ _ => rfl, ⟨_, rfl⟩, ?_, ?_, hlt, hb, fun c hc => ?_, ?_, fun l hl => ?_, fun c hc hcb hca => ?_, ?_,
    fun c hc => List.mem_insert_of_mem (mem_alloc_logged.mpr (Or.inl hc)), fun c hc => ?_⟩
  · rw [log_files, files_setBlock (s := s.alloc b) hB.ok (bmapstart_le hB.ok hlt hrange.1), alloc_files hB.ok hlt hlo]
  · rw [slotAt_entry h0, hj]
  · rw [log_free, free_setBlock (s := s.alloc b) hB.ok hrange.1 hc, alloc_free hB.ok hlt hlo hc]
  · rw [log_inode, setBlock_inode, alloc_inode, slotAt_entry h0, log_block, setBlock_block_self]
    refine (word_setWord_self _ _ (by change 4 * (j : ℕ) + 4 ≤ 1024; omega)).trans (Nat.mod_eq_of_lt ?_)
    exact Nat.lt_trans hlt (Nat.lt_trans hB.ok.lt (by decide))
  · cases l with
    | addr l => rfl
    | entry l =>
      rw [log_inode, setBlock_inode, alloc_inode, slotAt_entry h0, slotAt_entry h0, log_block, setBlock_block_self]
      exact word_setWord_of_ne _ _ fun h => hl (congrArg FileSlot.entry (Fin.ext h))
  · rw [log_block, setBlock_block_of_ne _ hca, alloc_block hB.ok hlt hc hcb]
  · rw [log_block, setBlock_block_of_ne _ hab.symm, alloc_block_self hB.ok hlt]
  · rw [log_logged, setBlock_logged, List.mem_insert_iff, not_or] at hc
    rw [log_block, setBlock_block_of_ne _ hc.1, alloc_clean hc.2]

end Fill

/-- What `bmap` has done when it returns `r` for block `bn`. -/
structure Bmapped (ip : InodeId) (bn r : ℕ) (s s' : Fs) : Prop where
  blocks : s'.Blocks (s'.live ip)
  wrote : ∀ lo v, Wrote ip lo lo v s s'
  logged : ∀ c, c ∈ s.logged → c ∈ s'.logged
  result : s'.fileBlock (s'.inode ip).d bn = r
  clean : Clean s s'
  full : r = 0 → ∀ c, c < s.sb.size → s'.free c = false
  same : s.fileBlock (s.inode ip).d bn ≠ 0 → s' = s

namespace Bmapped

variable {bn r : ℕ}

/-- The block is there. -/
theorem refl (hB : s.Blocks (s.live ip)) (hr : s.fileBlock (s.inode ip).d bn = r) (h0 : r ≠ 0) : Bmapped ip bn r s s where
  blocks := hB
  wrote lo v := .refl ip lo v s
  logged _ hc := hc
  result := hr
  clean _ _ := rfl
  full h := absurd h h0
  same _ := rfl

/-- The block is not there, and there are no free blocks. -/
theorem of_full (hB : s.Blocks (s.live ip)) (hr : s.fileBlock (s.inode ip).d bn = 0)
    (hfull : ∀ c, c < s.sb.size → s.free c = false) : Bmapped ip bn 0 s s where
  blocks := hB
  wrote lo v := .refl ip lo v s
  logged _ hc := hc
  result := hr
  clean _ _ := rfl
  full _ := hfull
  same _ := rfl

/-- The slot of the block has been filled. -/
theorem of_fill (hB : s.Blocks (s.live ip)) (hbn : bn < 268)
    (h : Fill ip (fileSlot bn) b s s') : Bmapped ip bn b s s' where
  blocks := h.blocks hB
  wrote lo v := h.wrote hB lo v
  logged := h.logged
  result := (fileBlock_of_lt hbn).trans h.slot_self
  clean := h.clean
  full h0 := absurd h0 (hB.ne_zero h.wasFree h.lt)
  same hne := absurd ((fileBlock_of_lt hbn).trans h.empty) hne

/-- The indirect block has come first. -/
theorem of_fill_indirect (hB : s.Blocks (s.live ip)) (hbn : bn < 268) (hle : 12 ≤ bn) (h₁ : Fill ip .indirect b s s₁)
    (h₂ : Bmapped ip bn r s₁ s') : Bmapped ip bn r s s' := by
  have hslot : fileSlot bn = .entry ⟨(bn - 12) % 256, Nat.mod_lt _ (Nat.succ_pos 255)⟩ := dif_neg (Nat.not_lt.mpr hle)
  have hnone : s.fileBlock (s.inode ip).d bn = 0 := by
    rw [fileBlock_of_lt hbn, hslot, slotAt_entry_of_zero h₁.empty]
  refine ⟨h₂.blocks, fun lo v => (h₁.wrote hB lo v).trans (h₂.wrote lo v) le_rfl le_rfl,
    fun c hc => h₂.logged c (h₁.logged c hc), h₂.result, Clean.trans h₁.clean h₂.clean h₂.logged,
    fun h0 c hc => h₂.full h0 c (by rwa [h₁.sb]), fun hne => absurd hnone hne⟩

end Bmapped

end Fs

open Fs

theorem ballocInto_ends {s : Fs} {addr : ℕ} {store : ℕ → FsM Unit} {Q : ℕ → Fs → Prop}
    (hcan : addr = 0 → s.CanTake) (hpos : ∀ b, b < s.sb.size → s.free b = true → b ≠ 0) (hold : addr ≠ 0 → Q addr s)
    (hfull : addr = 0 → (∀ c, c < s.sb.size → s.free c = false) → Q 0 s)
    (hnew : addr = 0 → ∀ b, b < s.sb.size → s.free b = true → Ends (store b) (s.alloc b) fun _ s' => Q b s') :
    Ends (ballocInto addr store) s Q := by
  rw [ballocInto]
  by_cases h0 : addr = 0
  · rw [if_neg (not_not.mpr h0)]
    refine .bind (balloc_ends (hcan h0)) fun b s' h => ?_
    obtain ⟨hlt, hfree, rfl⟩ | ⟨rfl, rfl, hused⟩ := h
    · rw [if_pos (hpos b hlt hfree)]
      exact .bind (hnew h0 b hlt hfree) fun _ s' hQ => .pure hQ
    · rw [if_neg (not_not.mpr rfl)]
      exact .pure (hfull h0 hused)
  · rw [if_pos h0]
    exact .pure (hold h0)

variable {s : Fs} {ip : InodeId} {bn : ℕ}

/-- The entry of the indirect block. -/
theorem bmap_entry_ends (hB : s.Blocks (s.live ip)) (hcan : s.fileBlock (s.inode ip).d bn = 0 → s.CanTake)
    (hbn : bn < 268) (hle : 12 ≤ bn)
    (h0 : (s.inode ip).d.addrs (Fin.last 12) ≠ 0) :
    Ends (ballocInto (word (s.block ((s.inode ip).d.addrs (Fin.last 12))) (bn - NDIRECT)) fun b => do
      bstore ((s.inode ip).d.addrs (Fin.last 12)) (setWord (← bread ((s.inode ip).d.addrs (Fin.last 12))) (bn - NDIRECT) b)
      logWrite ((s.inode ip).d.addrs (Fin.last 12))) s fun r s' => Bmapped ip bn r s s' := by
  have hj : bn - 12 < 256 := by omega
  have hslot : fileSlot bn = .entry ⟨bn - 12, hj⟩ := by
    rw [fileSlot, dif_neg (Nat.not_lt.mpr hle)]
    exact congrArg FileSlot.entry (Fin.ext (Nat.mod_eq_of_lt hj))
  have hword : s.fileBlock (s.inode ip).d bn = word (s.block ((s.inode ip).d.addrs (Fin.last 12))) (bn - 12) := by
    rw [fileBlock_of_lt hbn, hslot, slotAt_entry h0]
  refine ballocInto_ends (fun h => hcan (hword.trans h)) (fun b hlt hb => hB.ne_zero hb hlt) (fun hne => ?_)
    (fun h hfull => ?_) fun h b hlt hb => ?_
  · exact .refl hB hword hne
  · exact .of_full hB (hword.trans h) hfull
  · have hfill := fill_entry hB hb hlt (j := ⟨bn - 12, hj⟩) h0 h
    rw [← hslot] at hfill
    have hop := hcan (hword.trans h) ⟨b, hlt, hb⟩
    refine .get_bind (bstore_bind ((logWrite_ends ?_).mono fun _ s' hs' => ?_))
    · exact hop
    · rw [hs']
      exact .of_fill hB hbn hfill

/-- `bmap` finds the block of a file, or fills its slot. -/
theorem bmap_ends (hB : s.Blocks (s.live ip)) (hcan : s.fileBlock (s.inode ip).d bn = 0 → s.CanTake) (hbn : bn < 268) :
    Ends (bmap ip bn) s fun r s' => Bmapped ip bn r s s' := by
  rw [bmap]
  by_cases hdir : bn < NDIRECT
  · rw [dif_pos hdir]
    have hslot : fileSlot bn = .addr ⟨bn, Nat.lt_succ_of_lt hdir⟩ := dif_pos hdir
    have haddr : s.fileBlock (s.inode ip).d bn = (s.inode ip).d.addrs ⟨bn, Nat.lt_succ_of_lt hdir⟩ := by
      rw [fileBlock_of_lt hbn, hslot]
      rfl
    refine .get_bind (ballocInto_ends (fun h => hcan (haddr.trans h)) (fun b hlt hb => hB.ne_zero hb hlt) (fun hne => ?_)
      (fun h hfull => ?_) fun h b hlt hb => ?_)
    · exact .refl hB haddr hne
    · exact .of_full hB (haddr.trans h) hfull
    · have hfill := fill_addr hB hb hlt h
      rw [← hslot] at hfill
      exact .write (.of_fill hB hbn hfill)
  · have hle : 12 ≤ bn := Nat.not_lt.mp hdir
    rw [dif_neg hdir, if_pos (show bn - 12 < 256 by omega)]
    have hnone : (s.inode ip).d.addrs (Fin.last 12) = 0 → s.fileBlock (s.inode ip).d bn = 0 := fun h0 => by
      rw [fileBlock_of_lt hbn, fileSlot, dif_neg (Nat.not_lt.mpr hle), slotAt_entry_of_zero h0]
    have hind : Ends (ballocInto ((s.inode ip).d.addrs (Fin.last 12)) (setAddr ip (Fin.last 12))) s fun r s₁ =>
        (r = 0 ∧ s₁ = s ∧ (s.inode ip).d.addrs (Fin.last 12) = 0 ∧ ∀ c, c < s.sb.size → s.free c = false) ∨
        (r ≠ 0 ∧ (s₁.inode ip).d.addrs (Fin.last 12) = r ∧ (s₁ = s ∨ Fill ip .indirect r s s₁)) := by
      refine ballocInto_ends (fun h => hcan (hnone h)) (fun b hlt hb => hB.ne_zero hb hlt) (fun hne => ?_)
        (fun h hfull => ?_) fun h b hlt hb => ?_
      · exact Or.inr ⟨hne, rfl, Or.inl rfl⟩
      · exact Or.inl ⟨rfl, rfl, h, hfull⟩
      · have hfill := fill_addr hB hb hlt h
        exact .write (Or.inr ⟨hB.ne_zero hb hlt, hfill.slot_self, Or.inr hfill⟩)
    refine .get_bind (.bind hind fun addr s₁ h => ?_)
    obtain ⟨rfl, rfl, h0, hfull⟩ | ⟨hne, rfl, h⟩ := h
    · rw [if_pos rfl]
      exact .pure (.of_full hB (hnone h0) hfull)
    · rw [if_neg hne]
      obtain rfl | hfill := h
      · exact .get_bind (bmap_entry_ends hB hcan hbn hle hne)
      · have hop := hcan (hnone hfill.empty) ⟨_, hfill.lt, hfill.wasFree⟩
        rw [← hfill.op] at hop
        refine .get_bind ((bmap_entry_ends (hfill.blocks hB) (fun _ _ => hop) hbn hle hne).mono fun r s' h => ?_)
        exact .of_fill_indirect hB hbn hle hfill h

end Xv6
