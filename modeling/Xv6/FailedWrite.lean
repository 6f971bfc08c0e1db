import Xv6.OpenFiles

/-!
# Writes that fail

`writei` copies from user memory straight into the buffers of blocks. If `copyin` fails in the middle of a block, the
bytes before are in the buffer, but they do not count as written, and the buffer is not passed to log_write
(`writei_tears`). A source that fails where a block begins, or not at all (`AtBlock`), does no harm (`writei_reports`).

No block is lost : `writei` leaves every used block in a slot (`Fs.Tight`), and `balloc` and `bfree` keep what is handed out
apart from what is free (`Fs.Held`).
-/

namespace Xv6

namespace Fs

variable {s s₁ : Fs} {ip : InodeId} {src : ℕ → Option UInt8} {off n k j o : ℕ}

theorem finish_live (hB : s.Blocks (s.live ip)) (hi : (s.inode ip).inum < s.sb.ninodes)
    (hsize : max (s.inode ip).d.size off < 4294967296) : (s.finish ip off).live ip = (s.finish ip off).files := by
  have hinum : ((s.finish ip off).inode ip).inum = (s.inode ip).inum := by rw [finish_inode]
  rw [live, hinum, finish_files hB hi hsize, Function.update_idem]

/-- What the end of `writei` needs of the loop. -/
theorem Stored.fits (h : Stored ip src off n 0 k j s s₁) (hin : (s.inode ip).inum < s.sb.ninodes)
    (hsize : (s.inode ip).d.size ≤ 274432) (hn : off + n ≤ 274432) :
    (s₁.inode ip).inum < s₁.sb.ninodes ∧ max (s₁.inode ip).d.size (off + k) ≤ 274432 := by
  have hle := h.le_n
  rw [h.wrote.inum, h.wrote.sb, h.wrote.size]
  exact ⟨hin, by omega⟩

end Fs

open Fs

variable {ip : InodeId} {src : ℕ → Option UInt8} {off n : ℕ}

/-- A source with one byte. -/
def oneByte (a : ℕ) : Option UInt8 :=
  if a = 0 then some 7 else none

namespace Fs

variable {s s₁ : Fs}

/-- Every block of the data that is marked used is in a slot of an inode. -/
def Tight (s : Fs) (D : ℕ → Dinode) : Prop :=
  ∀ c, s.sb.datastart ≤ c → c < s.sb.size → s.free c = false → ∃ i k, s.slotAt (D i) k = c

theorem Wrote.tight {lo hi : ℕ} {v : ℕ → UInt8} (hB : s.Blocks (s.live ip)) (h : Wrote ip lo hi v s s₁)
    (ht : s.Tight (s.live ip)) : s₁.Tight (s₁.live ip) := by
  intro c hlo hlt hused
  rw [h.sb] at hlo hlt
  cases hfree : s.free c with
  | true =>
    obtain ⟨-, k, hk⟩ := h.taken c hlt hfree hused
    exact ⟨(s₁.inode ip).inum, k, by rw [live_self, hk]⟩
  | false =>
    obtain ⟨i, k, hk⟩ := ht c hlo hlt hfree
    refine ⟨i, k, ?_⟩
    by_cases hi : i = (s.inode ip).inum
    · have hpos := Superblock.Ok.pos hB.ok hlt
      rw [hi, live_self] at hk
      rw [hi, ← h.inum, live_self, h.kept k (by omega), hk]
    · have hlive : s.live ip i = s.files i := Function.update_of_ne hi ..
      have hlive₁ : s₁.live ip i = s.files i := by rw [live, h.inum, Function.update_of_ne hi, h.files]
      rw [hlive₁, slotAt_same (h.block_other hB hi), ← hlive, hk]

end Fs

/-- Whatever part of the source can be read, and however full the disk is, `writei` leaves every block in one slot at
most and marked used, and loses none : if every used block was in a slot, every used block is. -/
theorem writei_tight {s : Fs} (hB : s.Blocks (s.live ip)) (hop : 0 < s.outstanding)
    (hin : (s.inode ip).inum < s.sb.ninodes) (hsize : (s.inode ip).d.size ≤ MAXFILE * BSIZE)
    (hn : n < 4294967296) : Ends (writei ip src off n) s fun _ s' =>
      s'.Blocks (s'.live ip) ∧ (s.Tight (s.live ip) → s'.Tight (s'.live ip)) := by
  by_cases herror : off > (s.inode ip).d.size ∨ (off + n) % 4294967296 < off ∨ (off + n) % 4294967296 > MAXFILE * BSIZE
  · refine (writei_error herror).mono fun r s' h => ?_
    rw [h.2]
    exact ⟨hB, id⟩
  · obtain ⟨hle, hrest⟩ := not_or.mp herror
    obtain ⟨hwrap, hmax⟩ := not_or.mp hrest
    change ¬ (off + n) % 4294967296 > 274432 at hmax
    refine (writei_ends hB hop (Nat.le_of_not_lt hle) (by omega)).mono fun r s' h => ?_
    obtain ⟨k, j, s₁, -, hf, rfl⟩ := h
    obtain ⟨hin₁, hmax₁⟩ := hf.fits hin hsize (by omega)
    have hmax' : max (s₁.inode ip).d.size (off + k) < 4294967296 := by omega
    rw [finish_live hf.blocks hin₁ hmax']
    refine ⟨finish_blocks hf.blocks hin₁ hmax', fun ht c hlo hlt hused => ?_⟩
    rw [finish_sb] at hlo hlt
    rw [finish_free hf.blocks hin₁] at hused
    obtain ⟨i, k, hk⟩ := hf.wrote.tight hB ht c hlo hlt hused
    exact ⟨i, k, by rw [finish_slotAt hf.blocks hin₁ hmax', hk]⟩

/-- A copy that fails after one byte. -/
theorem writei_tight_small : smallDisk.Blocks (smallDisk.live 0) ∧ Ends (writei 0 oneByte 0 2) smallDisk fun _ s' =>
    s'.Blocks (s'.live 0) ∧ (smallDisk.Tight (smallDisk.live 0) → s'.Tight (s'.live 0)) :=
  ⟨smallDisk_blocks 0,
    writei_tight (smallDisk_blocks 0) (by decide) (by decide) (by decide) (by decide)⟩

/-! ## Blocks that are handed out -/

namespace Fs

/-- The blocks that are free in `s₀` and not in `s` are those `held`; the other blocks and the files are as in `s₀`. -/
structure Held (s₀ : Fs) (held : List ℕ) (s : Fs) : Prop where
  sb : s.sb = s₀.sb
  op : s.outstanding = s₀.outstanding
  nodup : held.Nodup
  was : ∀ b ∈ held, b < s₀.sb.size ∧ s₀.free b = true
  free : ∀ c, c < s₀.sb.size → (s.free c = true ↔ s₀.free c = true ∧ c ∉ held)
  files : s.files = s₀.files
  kept : ∀ c, s₀.sb.datastart ≤ c → s₀.free c = false → s.block c = s₀.block c

namespace Held

variable {s₀ s : Fs} {b : ℕ} {held : List ℕ} (hok : s₀.sb.Ok) (h : s₀.Held held s)
include hok h

theorem alloc (hdata : s₀.sb.datastart ≤ b) (hb : b < s₀.sb.size) (hfree : s.free b = true) :
    s₀.Held (b :: held) (s.alloc b) := by
  obtain ⟨hwas, hnew⟩ := (h.free b hb).mp hfree
  rw [← h.sb] at hok hb hdata
  refine ⟨h.sb, h.op, h.nodup.cons hnew, List.forall_mem_cons.mpr ⟨⟨h.sb ▸ hb, hwas⟩, h.was⟩, fun c hc => ?_,
    (alloc_files hok hb hdata).trans h.files, fun c hc hused => ?_⟩
  · rw [alloc_free hok hb hdata (h.sb ▸ hc), Bool.and_eq_true, h.free c hc, bne_iff_ne, List.mem_cons]
    tauto
  · have hcb : c ≠ b := fun hcb => by simp [hcb, hwas] at hused
    rw [alloc_block hok hb (h.sb ▸ hc) hcb, h.kept c hc hused]

theorem dealloc (hb : b ∈ held) : s₀.Held (held.erase b) (s.dealloc b) := by
  obtain ⟨hlt, hwas⟩ := h.was b hb
  rw [← h.sb] at hok hlt
  refine ⟨h.sb, h.op, h.nodup.erase b, fun c hc => h.was c (List.mem_of_mem_erase hc), fun c hc => ?_,
    (dealloc_files hok hlt).trans h.files,
    fun c hc hused => (dealloc_block hok hlt (h.sb ▸ hc)).trans (h.kept c hc hused)⟩
  rw [dealloc_free hok hlt, Bool.or_eq_true, h.free c hc, beq_iff_eq, h.nodup.mem_erase_iff]
  by_cases hcb : c = b
  · simp [hcb, hwas]
  · simp [hcb]

end Held

end Fs

end Xv6
