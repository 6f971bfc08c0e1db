import Mathlib.Logic.Relation
import Xv6.Directory
import Xv6.FileContents
import Xv6.InodeTable
import Xv6.SlotMap

/-!
# Directories are maps

The entries of a directory are a list of slots (`slots`) : `dirlookup` finds the text of a name in it, `dirlink` puts
one in, and the entries that sys_unlink clears are freed. So a directory is a map from the texts of names to inode numbers, in every
run of these (`directory_is_map`).
-/

namespace Xv6

open SlotMap Str

/-! ## Entries -/

/-- The bytes of entry `k`. -/
def piece (l : List UInt8) (k : ℕ) : List UInt8 :=
  (l.drop (16 * k)).take 16

/-- What an entry has : nothing if it is free, or the text of a name and an inode number. -/
def direntSlot (de : List UInt8) : Option (List UInt8 × ℕ) :=
  if direntInum de = 0 then none else some (nameText (direntName de), direntInum de)

/-- The entries of a directory with the contents `l`. -/
def slots (l : List UInt8) : List (Option (List UInt8 × ℕ)) :=
  (List.range (l.length / 16)).map fun k => direntSlot (piece l k)

variable {l data : List UInt8} {i k : ℕ}

theorem slots_length (l : List UInt8) : (slots l).length = l.length / 16 := by
  rw [slots, List.length_map, List.length_range]

theorem slots_getElem? (l : List UInt8) (k : ℕ) :
    (slots l)[k]? = if k < l.length / 16 then some (direntSlot (piece l k)) else none := by
  rw [slots, List.getElem?_map]
  split_ifs with hk
  · rw [List.getElem?_range hk]
    rfl
  · rw [List.getElem?_eq_none (by rw [List.length_range]; omega)]
    rfl

theorem piece_getElem? (l : List UInt8) (k j : ℕ) : (piece l k)[j]? = if j < 16 then l[16 * k + j]? else none := by
  rw [piece, List.getElem?_take]
  split_ifs with hj
  · rw [List.getElem?_drop]
  · rfl

section Splice

variable (hdata : data.length = 16) (hi : i ≤ l.length / 16)
include hdata hi

theorem piece_splice (k : ℕ) : piece (splice l (16 * i) data) k = if k = i then data else piece l k := by
  refine List.ext_getElem? fun j => ?_
  rw [piece_getElem?, splice_getElem? (by omega)]
  split_ifs with hj hin hk hk hk
  · rw [hk, Nat.add_sub_cancel_left]
  · omega
  · omega
  · rw [piece_getElem?, if_pos hj]
  · rw [List.getElem?_eq_none (by omega)]
  · rw [piece_getElem?, if_neg hj]

/-- An entry is written. -/
theorem slots_splice (h16 : l.length % 16 = 0) : slots (splice l (16 * i) data) = setAt (slots l) i (direntSlot data) := by
  have hle : i ≤ (slots l).length := by rwa [slots_length]
  refine List.ext_getElem? fun k => ?_
  rw [setAt_getElem? hle, slots_getElem?, slots_getElem?, splice_length (by omega), piece_splice hdata hi, hdata]
  split_ifs with h₁ h₂ h₃ h₃ h₂
  all_goals first
    | rfl
    | omega

end Splice

theorem dirent_length (inum : ℕ) (name : ℕ → UInt8) : (dirent inum (strncpy name DIRSIZ 0)).length = 16 := by
  rw [dirent, List.length_cons, List.length_cons, strncpy_length]

theorem direntSlot_dirent {inum : ℕ} (h₁ : 1 ≤ inum) (h₂ : inum ≤ 65535) (name : ℕ → UInt8) :
    direntSlot (dirent inum (strncpy name DIRSIZ 0)) = some (nameText name, inum) := by
  rw [direntSlot, direntInum_dirent (by omega), if_neg (by omega), nameText_dirent]

theorem direntSlot_zero : direntSlot (List.replicate 16 0) = none := by
  decide

/-! ## A directory of the file system -/

namespace Fs

variable {s s' : Fs} {dp : InodeId} {D : ℕ → Dinode}

/-- The disk is all that a file depends on. -/
theorem SameDisk.blocks (h : SameDisk s s') (hB : s.Blocks D) : s'.Blocks D := by
  obtain ⟨sb, block, logged, outstanding, inode⟩ := s
  obtain ⟨sb', block', logged', outstanding', inode'⟩ := s'
  obtain ⟨rfl, rfl, rfl, rfl⟩ := h
  exact ⟨hB.ok, hB.owned⟩

theorem SameDisk.fileByte (h : SameDisk s s') (d : Dinode) (o : ℕ) : s'.fileByte d o = s.fileByte d o := by
  obtain ⟨sb, block, logged, outstanding, inode⟩ := s
  obtain ⟨sb', block', logged', outstanding', inode'⟩ := s'
  obtain ⟨rfl, rfl, rfl, rfl⟩ := h
  rfl

theorem SameDisk.contents (h : SameDisk s s') (d : Dinode) : s'.contents d = s.contents d := by
  unfold Fs.contents
  simp only [h.fileByte d]

theorem SameDisk.files (h : SameDisk s s') : s'.files = s.files :=
  files_congr h.sb fun i _ => by rw [h.block]

end Fs

open Fs

/-- The directory `dp` has the contents `l`; it is locked by an operation, which has a reference to it. -/
structure Directory (dp : InodeId) (l : List UInt8) (s : Fs) : Prop where
  blocks : s.Blocks (s.live dp)
  inum : (s.inode dp).inum < s.sb.ninodes
  filled : s.Filled (s.inode dp).d
  contents : s.contents (s.inode dp).d = l
  whole : l.length % 16 = 0
  type : (s.inode dp).d.type = T_DIR
  held : 0 < (s.inode dp).ref
  op : 0 < s.outstanding

namespace Directory

variable {s s' : Fs} {dp : InodeId}

theorem size (h : Directory dp l s) : (s.inode dp).d.size = l.length := by
  rw [← h.contents, contents_length]

theorem length_le (h : Directory dp l s) : l.length ≤ 274432 :=
  h.size ▸ h.filled.size_le

/-- The other inodes in memory may change. -/
theorem of_memory (h : Directory dp l s) (hdisk : SameDisk s s')
    (hself : s'.inode dp = { s.inode dp with ref := (s'.inode dp).ref }) (hheld : 0 < (s'.inode dp).ref) :
    Directory dp l s' := by
  have hd : (s'.inode dp).d = (s.inode dp).d := by rw [hself]
  have hinum : (s'.inode dp).inum = (s.inode dp).inum := by rw [hself]
  have hlive : s'.live dp = s.live dp := by rw [live, live, hd, hinum, hdisk.files]
  refine ⟨?_, ?_, fun o ho => ?_, ?_, h.whole, ?_, hheld, ?_⟩
  · rw [hlive]
    exact hdisk.blocks h.blocks
  · rw [hinum, hdisk.sb]
    exact h.inum
  · rw [hd] at ho ⊢
    rw [hdisk.fileByte]
    exact h.filled o ho
  · rw [hd, hdisk.contents, h.contents]
  · rw [hd, h.type]
  · rw [hdisk.outstanding]
    exact h.op

theorem iget (h : Directory dp l s) {dev inum : ℕ} {ip : InodeId} (hg : Iget dev inum ip s s') : Directory dp l s' := by
  have hheld := h.held
  refine h.of_memory hg.disk (hg.used (by omega)) ?_
  rw [hg.ref]
  split_ifs <;> omega

/-- An entry is read. -/
theorem read (h : Directory dp l s) (hk : 16 * k < l.length) :
    Ends (readi dp (fun _ => true) (16 * k) DIRENT) s fun r s' => s' = s ∧ r = (16, piece l k) := by
  have hle := h.length_le
  have hwhole := h.whole
  refine (readsAs_contents h.blocks h.filled (fun _ => true) (16 * k) DIRENT (by omega) (by decide) fun _ _ => rfl).mono
    fun r s' hr => ⟨hr.1, hr.2.trans ?_⟩
  rw [h.contents, if_pos ⟨by omega, by change 16 * k + 16 < _; omega⟩]
  refine Prod.ext ?_ rfl
  change ((min 16 (l.length - 16 * k) : ℕ) : ℤ) = 16
  omega

theorem drop_slots (hwhole : l.length % 16 = 0) (hk : 16 * k < l.length) :
    (slots l).drop k = direntSlot (piece l k) :: (slots l).drop (k + 1) := by
  have hlt : k < (slots l).length := by
    rw [slots_length]
    omega
  have hget := slots_getElem? l k
  rw [if_pos (by omega), List.getElem?_eq_getElem hlt] at hget
  rw [List.drop_eq_getElem_cons hlt, Option.some.inj hget]

theorem drop_slots_end (hk : ¬ 16 * k < l.length) : (slots l).drop k = [] := by
  refine List.drop_eq_nil_of_le ?_
  rw [slots_length]
  omega

/-- What `dirlookup` returns for an entry that has been found. -/
def Found (dp : InodeId) (o : Option (ℕ × ℕ)) (s : Fs) (r : Option (InodeId × ℕ)) (s' : Fs) : Prop :=
  match o with
  | none => r = none ∧ s' = s
  | some (i, inum) => ∃ ip, r = some (ip, 16 * i) ∧ Iget (s.inode dp).dev inum ip s s'

theorem dirlookupFrom_outcome (h : Directory dp l s) (name : ℕ → UInt8) (n : ℕ) : ∀ k, l.length ≤ 16 * (k + n) →
    Outcome (dirlookupFrom dp name n (16 * k)) s (Found dp (findFrom (nameText name) k ((slots l).drop k)) s)
      fun e => e = .igetNoInodes ∧ ∀ ip, (s.inode ip).ref ≠ 0 := by
  induction n with
  | zero =>
    intro k hn
    rw [drop_slots_end (by omega)]
    exact .pure ⟨rfl, rfl⟩
  | succ n ih =>
    intro k hn
    refine .get_bind ?_
    rw [h.size]
    by_cases hk : 16 * k < l.length
    · rw [if_pos hk, drop_slots h.whole hk]
      refine .bind_ends (h.read hk) fun x s' hx => ?_
      obtain ⟨rfl, rfl⟩ := hx
      have hrest := ih (k + 1) (by omega)
      rw [Nat.mul_add, Nat.mul_one] at hrest
      dsimp only
      rw [if_neg (by decide)]
      by_cases hzero : direntInum (piece l k) = 0
      · rw [if_neg fun hmatch => hmatch.1 hzero, direntSlot, if_pos hzero]
        exact hrest
      rw [direntSlot, if_neg hzero, findFrom]
      by_cases hname : nameText name = nameText (direntName (piece l k))
      · rw [if_pos ⟨hzero, (namecmp_eq_zero _ _).mpr hname⟩, if_pos hname]
        refine .get_bind (.bind (iget_outcome _ _ s') fun ip s₁ hip => ?_)
        exact .pure ⟨ip, rfl, hip⟩
      · rw [if_neg fun hmatch => hname ((namecmp_eq_zero _ _).mp hmatch.2), if_neg hname]
        exact hrest
    · rw [if_neg hk, drop_slots_end hk]
      exact .pure ⟨rfl, rfl⟩

theorem dirlookup_outcome (h : Directory dp l s) (name : ℕ → UInt8) :
    Outcome (dirlookup dp name) s (Found dp (findFrom (nameText name) 0 (slots l)) s)
      fun e => e = .igetNoInodes ∧ ∀ ip, (s.inode ip).ref ≠ 0 := by
  refine .get_bind ?_
  dsimp only
  rw [if_neg (not_not.mpr h.type), h.size]
  exact h.dirlookupFrom_outcome name _ 0 (by change _ ≤ 16 * (0 + (l.length + 15) / 16); omega)

theorem direntFree_ends (h : Directory dp l s) (n : ℕ) : ∀ k, l.length ≤ 16 * (k + n) → 16 * k ≤ l.length →
    Ends (direntFree dp n (16 * k)) s fun off s' => s' = s ∧ off = 16 * (k + place ((slots l).drop k)) := by
  induction n with
  | zero =>
    intro k hn _
    rw [drop_slots_end (by omega)]
    exact .pure ⟨rfl, rfl⟩
  | succ n ih =>
    intro k hn hk
    refine .get_bind ?_
    rw [h.size]
    by_cases hlt : 16 * k < l.length
    · have hwhole := h.whole
      rw [if_pos hlt, drop_slots h.whole hlt]
      refine .bind (h.read hlt) fun x s' hx => ?_
      obtain ⟨rfl, rfl⟩ := hx
      dsimp only
      rw [if_neg (by decide)]
      by_cases hzero : direntInum (piece l k) = 0
      · rw [if_pos hzero, direntSlot, if_pos hzero]
        exact .pure ⟨rfl, rfl⟩
      · rw [if_neg hzero, direntSlot, if_neg hzero, place]
        have hrest := ih (k + 1) (by omega) (by omega)
        rw [Nat.mul_add, Nat.mul_one] at hrest
        refine hrest.mono fun off s₁ ho => ⟨ho.1, ho.2.trans ?_⟩
        omega
    · rw [if_neg hlt, drop_slots_end hlt]
      exact .pure ⟨rfl, rfl⟩

/-! ## Writing an entry -/

section Write

variable (h : Directory dp l s) (hdata : data.length = 16) (hi : i ≤ l.length / 16)
include h hdata hi

theorem finish {j : ℕ} {s₁ : Fs} (hmax : 16 * i + 16 ≤ 274432)
    (hs : Stored dp (fun a => data[a]?) (16 * i) data.length 0 j 0 s s₁) (hj : j = 0 ∨ j = data.length) :
    Directory dp (splice l (16 * i) (data.take j)) (s₁.finish dp (16 * i + j)) := by
  have hoff : 16 * i ≤ (s.inode dp).d.size := by
    rw [h.size]
    omega
  have hre := hs.rewritten h.blocks h.inum h.filled hoff (hdata ▸ hmax) (reads_getElem? data)
  rw [h.contents] at hre
  obtain ⟨addrs, hself⟩ := hs.wrote.self
  have hinode := finish_inode s₁ dp (16 * i + j)
  rw [hself] at hinode
  have hsb : (s₁.finish dp (16 * i + j)).sb = s.sb := finish_sb.trans hs.wrote.sb
  refine ⟨hre.live ▸ hre.blocks, ?_, hre.filled, hre.contents, ?_, ?_, ?_, ?_⟩
  · rw [hinode, hsb]
    exact h.inum
  · have hwhole := h.whole
    rw [splice_length (by omega), List.length_take, hdata]
    omega
  · rw [hinode]
    exact h.type
  · rw [hinode]
    exact h.held
  · rw [finish_outstanding, hs.wrote.op]
    exact h.op

theorem write : Ends (writei dp (fun a => data[a]?) (16 * i) DIRENT) s fun r s' =>
    r = 16 ∧ Directory dp (splice l (16 * i) data) s' ∨ r ≠ 16 ∧ l.length = 16 * i ∧ Directory dp l s' := by
  have hle := h.length_le
  have hwhole := h.whole
  by_cases hmax : 16 * i + 16 ≤ 274432
  · have hoff : 16 * i ≤ (s.inode dp).d.size := by
      rw [h.size]
      omega
    refine (writei_ends h.blocks h.op hoff hmax).mono fun r s' hr => ?_
    obtain ⟨j, m, s₁, rfl, hs₁, rfl⟩ := hr
    have hs : Stored dp (fun a => data[a]?) (16 * i) data.length 0 j m s s₁ := by
      rw [hdata]
      exact hs₁
    obtain rfl := hs.part_eq_zero (reads_getElem? data)
    have hj := hs.whole (by omega) (reads_getElem? data)
    have hfinish := h.finish hdata hi hmax hs hj
    obtain rfl | rfl := hj
    · rw [List.take_zero, splice_nil] at hfinish
      refine Or.inr ⟨by decide, ?_, hfinish⟩
      -- an entry that is there has its block
      by_contra hne
      obtain (hk | ⟨-, hhole, -⟩) | ⟨hlt, hnone⟩ := hs.stop
      · omega
      · have hthere : s.fileBlock (s.inode dp).d ((16 * i + 0) / 1024) ≠ 0 := fun h0 =>
          h.filled (16 * i) (by rw [h.size]; omega) (fileByte_eq_none.mpr h0)
        exact hthere ((hs.wrote.fileBlock hthere).symm.trans hhole)
      · rw [List.getElem?_eq_none_iff] at hnone
        omega
    · rw [List.take_length] at hfinish
      exact Or.inl ⟨by rw [hdata]; rfl, hfinish⟩
  · refine (writei_error (Or.inr (Or.inr ?_))).mono fun r s' hr => ?_
    · change (16 * i + 16) % 4294967296 > 274432
      omega
    · obtain ⟨rfl, rfl⟩ := hr
      exact Or.inr ⟨by decide, by omega, h⟩

end Write

/-! ## dirlink -/

/-- Nothing has changed but slots of the inode table that are not in use. -/
structure Idle (s s' : Fs) : Prop where
  disk : SameDisk s s'
  ref : ∀ jp, (s'.inode jp).ref = (s.inode jp).ref
  used : ∀ jp, (s.inode jp).ref ≠ 0 → s'.inode jp = s.inode jp

/-- A reference is taken and dropped. -/
theorem idle_of_iget {dev inum : ℕ} {ip : InodeId} (hg : Iget dev inum ip s s') :
    Idle s (s'.setInode ip { s'.inode ip with ref := (s'.inode ip).ref - 1 }) := by
  have hself := hg.ref ip
  rw [if_pos rfl] at hself
  refine ⟨hg.disk.trans (s'.setInode_sameDisk ip _), fun jp => ?_, fun jp hjp => ?_⟩
  · by_cases heq : jp = ip
    · rw [heq, setInode_inode_self]
      dsimp only
      omega
    · rw [setInode_inode_of_ne _ heq, hg.others jp heq]
  · by_cases heq : jp = ip
    · rw [heq, setInode_inode_self, hg.used (heq ▸ hjp)]
      dsimp only
      rw [hself, Int.add_sub_cancel]
    · rw [setInode_inode_of_ne _ heq, hg.others jp heq]

theorem Idle.directory (h : Idle s s') (hd : Directory dp l s) : Directory dp l s' := by
  have hheld := hd.held
  have hsame := h.used dp (by omega)
  exact hd.of_memory h.disk (by rw [hsame]) (by rw [hsame]; exact hheld)

/-- What `dirlink` does : the name is there, or an entry is written, or there is no room for one. -/
inductive Linked (dp : InodeId) (l : List UInt8) (name : ℕ → UInt8) (inum : ℕ) (s : Fs) : ℤ → Fs → Prop
  | there {s' : Fs} : find (nameText name) (slots l) ≠ none → Idle s s' → Linked dp l name inum s (-1) s'
  | written {s' : Fs} : find (nameText name) (slots l) = none →
      Directory dp (splice l (16 * place (slots l)) (dirent inum (strncpy name DIRSIZ 0))) s' → Linked dp l name inum s 0 s'
  | full {s' : Fs} : find (nameText name) (slots l) = none → none ∉ slots l → Directory dp l s' →
      Linked dp l name inum s (-1) s'

theorem dirlink_outcome (h : Directory dp l s) (name : ℕ → UInt8) (inum : ℕ) :
    Outcome (dirlink dp name inum) s (Linked dp l name inum s)
      fun e => e = .igetNoInodes ∧ ∀ ip, (s.inode ip).ref ≠ 0 := by
  refine .bind (h.dirlookup_outcome name) fun r s₁ hr => ?_
  cases hfind : findFrom (nameText name) 0 (slots l) with
  | some x =>
    rw [hfind] at hr
    obtain ⟨ip, rfl, hg⟩ := hr
    refine .bind_ends (iput_drop hg.not_last) fun _ s' hs' => ?_
    subst hs'
    refine .pure (.there (fun hnone => ?_) (idle_of_iget hg))
    rw [find, hfind] at hnone
    cases hnone
  | none =>
    rw [hfind] at hr
    obtain ⟨rfl, rfl⟩ := hr
    have hnone : find (nameText name) (slots l) = none := by
      rw [find, hfind]
      rfl
    have hplace := place_le (slots l)
    rw [slots_length] at hplace
    refine .get_bind (.bind_ends (h.direntFree_ends _ 0 ?_ (Nat.zero_le _)) fun off s' hoff => ?_)
    · rw [h.size]
      change _ ≤ 16 * (0 + (l.length + 15) / 16)
      omega
    · obtain ⟨rfl, rfl⟩ := hoff
      rw [List.drop_zero, Nat.zero_add]
      refine .bind_ends (h.write (dirent_length inum name) hplace) fun r s₁ hr => ?_
      obtain ⟨rfl, hdir⟩ | ⟨hne, hend, hdir⟩ := hr
      · exact .pure (.written hnone hdir)
      · have hfull : none ∉ slots l := by
          rw [← place_eq_length, slots_length]
          omega
        rw [if_pos (show r ≠ (DIRENT : ℤ) from hne)]
        exact .pure (.full hnone hfull hdir)

/-- The entry is cleared. -/
theorem clearDirent_ends (h : Directory dp l s) (hi : i < l.length / 16) :
    Ends (clearDirent dp (16 * i)) s fun _ s' => Directory dp (splice l (16 * i) (List.replicate 16 0)) s' := by
  refine .bind (h.write (List.length_replicate) (Nat.le_of_lt hi)) fun r s' hr => ?_
  obtain ⟨rfl, hdir⟩ | ⟨-, hend, -⟩ := hr
  · exact .pure hdir
  · omega

end Directory

/-! ## Runs -/

/-- The inode number that a directory with the contents `l` has for a name. -/
def entry (l : List UInt8) (name : ℕ → UInt8) : Option ℕ :=
  find (nameText name) (slots l)

/-- What is done elsewhere, while the directory is not written. -/
def Elsewhere (dp : InodeId) (s s' : Fs) : Prop :=
  ∀ l, Directory dp l s → Directory dp l s'

/-- The changes of a directory. -/
inductive DirStep (dp : InodeId) : Fs → Fs → Prop
  | link {s s' : Fs} {r : ℤ} (name : ℕ → UInt8) (inum : ℕ) : 1 ≤ inum → inum ≤ 65535 →
      dirlink dp name inum s = .ok (r, s') → DirStep dp s s'
  | unlink {s s₁ s₂ s' : Fs} {ip : InodeId} {off : ℕ} (name : ℕ → UInt8) :
      dirlookup dp name s = .ok (some (ip, off), s₁) → Elsewhere dp s₁ s₂ → clearDirent dp off s₂ = .ok ((), s') →
      DirStep dp s s'
  | elsewhere {s s' : Fs} : Elsewhere dp s s' → DirStep dp s s'

variable {s s' : Fs} {dp : InodeId} {name : ℕ → UInt8} {inum : ℕ}

namespace Directory

/-- The offset that `dirlookup` returns is that of an entry with the name. -/
theorem dirlookup_offset (h : Directory dp l s) {ip : InodeId} {off : ℕ}
    (hrun : dirlookup dp name s = .ok (some (ip, off), s')) :
    Directory dp l s' ∧ ∃ i inum, off = 16 * i ∧ i < l.length / 16 ∧ (slots l)[i]? = some (some (nameText name, inum)) := by
  have hr := (h.dirlookup_outcome name).ok hrun
  have hspec := findFrom_spec (nameText name) (slots l) 0
  cases hfind : findFrom (nameText name) 0 (slots l) with
  | none =>
    rw [hfind] at hr
    cases hr.1
  | some x =>
    rw [hfind] at hr hspec
    obtain ⟨jp, heq, hg⟩ := hr
    cases heq
    have hget := hspec.2
    rw [Nat.sub_zero] at hget
    refine ⟨h.iget hg, x.1, x.2, rfl, ?_, hget⟩
    have hlt := (List.getElem?_eq_some_iff.mp hget).1
    rwa [slots_length] at hlt

end Directory

/-- A new entry. -/
theorem slots_link (h16 : l.length % 16 = 0) (h₁ : 1 ≤ inum) (h₂ : inum ≤ 65535) :
    slots (splice l (16 * place (slots l)) (dirent inum (strncpy name DIRSIZ 0))) =
      setAt (slots l) (place (slots l)) (some (nameText name, inum)) := by
  have hplace := place_le (slots l)
  rw [slots_length] at hplace
  rw [slots_splice (dirent_length inum name) hplace h16, direntSlot_dirent h₁ h₂]

theorem slots_clear (h16 : l.length % 16 = 0) (hi : i < l.length / 16) :
    slots (splice l (16 * i) (List.replicate 16 0)) = setAt (slots l) i none := by
  rw [slots_splice List.length_replicate (Nat.le_of_lt hi) h16, direntSlot_zero]

/-- A directory whose names are pairwise different. -/
def IsMap (dp : InodeId) (l : List UInt8) (s : Fs) : Prop :=
  Directory dp l s ∧ Distinct (slots l)

/-- One step keeps the names different. -/
theorem IsMap.step (h : IsMap dp l s) (hstep : DirStep dp s s') : ∃ l', IsMap dp l' s' := by
  obtain ⟨hdir, hdist⟩ := h
  cases hstep with
  | link name inum h₁ h₂ hrun =>
    cases (hdir.dirlink_outcome name inum).ok hrun with
    | there _ hidle => exact ⟨l, hidle.directory hdir, hdist⟩
    | written hnone hdir' =>
      refine ⟨_, hdir', ?_⟩
      rw [slots_link hdir.whole h₁ h₂]
      exact distinct_put hdist hnone inum
    | full _ _ hdir' => exact ⟨l, hdir', hdist⟩
  | unlink name hlookup helse hclear =>
    obtain ⟨hdir₁, i, inum, rfl, hi, hget⟩ := hdir.dirlookup_offset hlookup
    refine ⟨_, ((helse l hdir₁).clearDirent_ends hi).elim hclear, ?_⟩
    rw [slots_clear hdir.whole hi]
    exact distinct_clear hdist hget
  | elsewhere helse => exact ⟨l, helse l hdir, hdist⟩

theorem IsMap.run {s₀ : Fs} (h₀ : Directory dp [] s₀) (hrun : Relation.ReflTransGen (DirStep dp) s₀ s) :
    ∃ l, IsMap dp l s := by
  induction hrun with
  | refl => exact ⟨[], h₀, fun i j e f he => by cases he⟩
  | tail _ hstep ih =>
    obtain ⟨l, h⟩ := ih
    exact h.step hstep

end Xv6
