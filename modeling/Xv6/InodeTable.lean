import Xv6.FsView

/-!
# References to inodes

`iget` finds the inode of a number in the table, or takes a slot that nothing refers to (`Fs.Iget`). A reference that is
not the last one to a loaded inode without links is dropped by `iput` without any other effect (`iput_drop`).
-/

namespace Xv6

namespace Fs

/-- Only inodes in memory have changed. -/
structure SameDisk (s s' : Fs) : Prop where
  sb : s'.sb = s.sb
  block : s'.block = s.block
  logged : s'.logged = s.logged
  outstanding : s'.outstanding = s.outstanding

theorem SameDisk.refl (s : Fs) : SameDisk s s :=
  ⟨rfl, rfl, rfl, rfl⟩

theorem SameDisk.trans {s s₁ s' : Fs} (h₁ : SameDisk s s₁) (h₂ : SameDisk s₁ s') : SameDisk s s' :=
  ⟨h₂.sb.trans h₁.sb, h₂.block.trans h₁.block, h₂.logged.trans h₁.logged, h₂.outstanding.trans h₁.outstanding⟩

theorem setInode_sameDisk (s : Fs) (ip : InodeId) (x : Inode) : SameDisk s (s.setInode ip x) :=
  ⟨rfl, rfl, rfl, rfl⟩

theorem setInode_setInode {s : Fs} (ip : InodeId) (x y : Inode) : (s.setInode ip x).setInode ip y = s.setInode ip y := by
  unfold setInode
  rw [Function.update_idem]

theorem setInode_dinode {s : Fs} (ip : InodeId) (x : Inode) : (s.setInode ip x).dinode = s.dinode :=
  rfl

/-- `iget` has returned `ip`. -/
structure Iget (dev inum : ℕ) (ip : InodeId) (s s' : Fs) : Prop where
  disk : SameDisk s s'
  others : ∀ jp, jp ≠ ip → s'.inode jp = s.inode jp
  self : 0 < (s.inode ip).ref ∧ (s.inode ip).dev = dev ∧ (s.inode ip).inum = inum ∧
      s'.inode ip = { s.inode ip with ref := (s.inode ip).ref + 1 } ∨
    (s.inode ip).ref = 0 ∧ s'.inode ip = { s.inode ip with dev := dev, inum := inum, ref := 1, valid := false }
  -- a slot is taken only if the inode is not in the table
  fresh : (s.inode ip).ref = 0 → ∀ jp, 0 < (s.inode jp).ref → (s.inode jp).dev = dev → (s.inode jp).inum ≠ inum

namespace Iget

variable {dev inum : ℕ} {ip : InodeId} {s s' : Fs}

theorem ref (h : Iget dev inum ip s s') (jp : InodeId) :
    (s'.inode jp).ref = (s.inode jp).ref + if jp = ip then 1 else 0 := by
  split_ifs with heq
  · subst heq
    obtain ⟨-, -, -, heq⟩ | ⟨hzero, heq⟩ := h.self
    · rw [heq]
    · rw [heq, hzero]
      rfl
  · rw [h.others jp heq, Int.add_zero]

theorem eq_setInode (h : Iget dev inum ip s s') : s' = s.setInode ip (s'.inode ip) := by
  have hinode : s'.inode = Function.update s.inode ip (s'.inode ip) := funext fun jp => by
    by_cases heq : jp = ip
    · rw [heq, Function.update_self]
    · rw [Function.update_of_ne heq, h.others jp heq]
  obtain ⟨hsb, hblock, hlogged, hop⟩ := h.disk
  cases s'
  dsimp only at hsb hblock hlogged hop hinode ⊢
  rw [setInode, ← hinode, hsb, hblock, hlogged, hop]

/-- An inode in use is as before, with a reference more perhaps. -/
theorem used (h : Iget dev inum ip s s') {jp : InodeId} (hjp : (s.inode jp).ref ≠ 0) :
    s'.inode jp = { s.inode jp with ref := (s'.inode jp).ref } := by
  by_cases heq : jp = ip
  · subst heq
    obtain ⟨-, -, -, heq⟩ | ⟨hzero, -⟩ := h.self
    · rw [heq]
    · exact absurd hzero hjp
  · rw [h.others jp heq]

/-- `iput` will not free the inode. -/
theorem not_last (h : Iget dev inum ip s s') :
    ¬ ((s'.inode ip).ref = 1 ∧ (s'.inode ip).valid = true ∧ (s'.inode ip).d.nlink = 0) := by
  rintro ⟨hone, hvalid, -⟩
  obtain ⟨hpos, -, -, heq⟩ | ⟨-, heq⟩ := h.self
  · rw [heq] at hone
    dsimp only at hone
    omega
  · rw [heq] at hvalid
    cases hvalid

end Iget

end Fs

open Fs

theorem iget_outcome (dev inum : ℕ) (s : Fs) : Outcome (iget dev inum) s (fun ip s' => Iget dev inum ip s s')
    fun e => e = .igetNoInodes ∧ ∀ ip, (s.inode ip).ref ≠ 0 := by
  refine .get_bind ?_
  split
  · next ip hfind =>
    have hmatch := List.find?_some hfind
    rw [decide_eq_true_iff] at hmatch
    refine show Iget dev inum ip s (s.setInode ip _) from
      ⟨s.setInode_sameDisk ip _, fun jp hjp => setInode_inode_of_ne _ hjp, Or.inl ?_, fun hzero => ?_⟩
    · exact ⟨hmatch.1, hmatch.2.1, hmatch.2.2, setInode_inode_self ip _⟩
    · have hpos := hmatch.1
      omega
  · next hno =>
    split
    · next hnone =>
      refine show _ ∧ _ from ⟨rfl, fun ip hzero => ?_⟩
      exact List.find?_eq_none.mp hnone ip (List.mem_finRange ip) (decide_eq_true hzero)
    · next ip hfind =>
      have hzero := List.find?_some hfind
      rw [decide_eq_true_iff] at hzero
      refine show Iget dev inum ip s (s.setInode ip _) from
        ⟨s.setInode_sameDisk ip _, fun jp hjp => setInode_inode_of_ne _ hjp, Or.inr ?_, fun _ jp hpos hdev hinum => ?_⟩
      · exact ⟨hzero, setInode_inode_self ip _⟩
      · exact List.find?_eq_none.mp hno jp (List.mem_finRange jp) (decide_eq_true ⟨hpos, hdev, hinum⟩)

theorem acquiresleep_ends {s : Fs} {ip : InodeId} (hlock : (s.inode ip).locked = false) :
    Ends (acquiresleep ip) s fun _ s' => s' = s.setInode ip { s.inode ip with locked := true } := by
  refine .get_bind ?_
  rw [if_neg (by rw [hlock]; exact Bool.false_ne_true)]
  exact ⟨(), _, rfl, rfl⟩

/-- The inode is locked, and loaded if it has not been. -/
theorem ilock_ends {s : Fs} {ip : InodeId} (href : 0 < (s.inode ip).ref) (hlock : (s.inode ip).locked = false)
    {d : Dinode} (hd : d = if (s.inode ip).valid = true then (s.inode ip).d else s.dinode (s.inode ip).inum)
    (htype : (s.inode ip).valid = false → d.type ≠ 0) :
    Ends (ilock ip) s fun _ s' => s' = s.setInode ip { s.inode ip with locked := true, valid := true, d := d } := by
  refine .get_bind ?_
  rw [if_neg (by omega)]
  refine .bind (acquiresleep_ends hlock) fun _ s₁ hs₁ => ?_
  subst hs₁
  refine .get_bind ?_
  rw [setInode_inode_self]
  cases hvalid : (s.inode ip).valid with
  | true =>
    rw [hvalid, if_pos rfl] at hd
    have hsame : { s.inode ip with locked := true } = { s.inode ip with locked := true, valid := true, d := d } := by
      rw [hd, ← hvalid]
    exact .pure (congrArg (s.setInode ip) hsame)
  | false =>
    rw [hvalid, if_neg Bool.false_ne_true] at hd
    dsimp only
    rw [if_pos (show (!false) = true from rfl), setInode_dinode, ← hd]
    refine .set_bind ?_
    rw [if_neg (htype hvalid)]
    exact .pure (setInode_setInode ip _ _)

/-- The inode `ip`, as it is on the disk if it is not loaded. -/
def Fs.loaded (s : Fs) (ip : InodeId) : Dinode :=
  if (s.inode ip).valid = true then (s.inode ip).d else s.dinode (s.inode ip).inum

/-- The inode `ip` is locked, and loaded. -/
def Fs.hold (s : Fs) (ip : InodeId) : Fs :=
  s.setInode ip { s.inode ip with locked := true, valid := true, d := s.loaded ip }

@[simp] theorem hold_inode (s : Fs) (ip : InodeId) :
    (s.hold ip).inode ip = { s.inode ip with locked := true, valid := true, d := s.loaded ip } :=
  setInode_inode_self ip _

theorem acquiresleep_outcome (s : Fs) (ip : InodeId) : Outcome (acquiresleep ip) s
    (fun _ s' => s' = s.setInode ip { s.inode ip with locked := true }) fun e => e = .deadlock := by
  cases hlock : (s.inode ip).locked with
  | true =>
    refine .get_bind ?_
    rw [if_pos hlock]
    exact .throw_bind rfl
  | false => exact .of_ends (acquiresleep_ends hlock)

theorem ilock_outcome (s : Fs) (ip : InodeId) : Outcome (ilock ip) s (fun _ s' => s' = s.hold ip ∧ 0 < (s.inode ip).ref)
    fun e => e = .ilock ∨ e = .deadlock ∨ e = .ilockNoType := by
  refine .get_bind ?_
  by_cases href : (s.inode ip).ref < 1
  · rw [if_pos href]
    exact .throw_bind (Or.inl rfl)
  · rw [if_neg href]
    refine .bind ((acquiresleep_outcome s ip).mono_error fun e he => Or.inr (Or.inl he)) fun _ s₁ hs₁ => ?_
    subst hs₁
    refine .get_bind ?_
    rw [setInode_inode_self, setInode_dinode, hold, loaded]
    cases hvalid : (s.inode ip).valid with
    | true =>
      rw [if_pos rfl]
      refine .pure ⟨congrArg (s.setInode ip) ?_, by omega⟩
      rw [← hvalid]
    | false =>
      rw [if_neg Bool.false_ne_true]
      dsimp only
      rw [if_pos (show (!false) = true from rfl)]
      refine .set_bind ?_
      split_ifs with htype
      · exact Or.inr (Or.inr rfl)
      · exact .pure ⟨setInode_setInode ip _ _, by omega⟩

theorem iunlock_ends {s : Fs} {ip : InodeId} (href : 0 < (s.inode ip).ref) (hlock : (s.inode ip).locked = true) :
    Ends (iunlock ip) s fun _ s' => s' = s.setInode ip { s.inode ip with locked := false } := by
  refine .get_bind ?_
  rw [if_neg (by rw [hlock]; simp only [Bool.not_true, Bool.false_eq_true, false_or]; omega)]
  exact .write rfl

theorem iput_drop {s : Fs} {ip : InodeId}
    (h : ¬ ((s.inode ip).ref = 1 ∧ (s.inode ip).valid = true ∧ (s.inode ip).d.nlink = 0)) :
    Ends (iput ip) s fun _ s' => s' = s.setInode ip { s.inode ip with ref := (s.inode ip).ref - 1 } := by
  refine .get_bind ?_
  dsimp only
  rw [if_neg h]
  exact .modify_bind (.pure rfl)

end Xv6
