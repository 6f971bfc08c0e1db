import Xv6.Fs

/-!
# Directories

The directory layer of kernel/fs.c, and what sys_unlink does to an entry. A directory is a file of entries of 16 bytes :
an inode number, which is 0 in a free entry, and a name of 14 bytes. A shorter name is filled up with zeros, and a name
of 14 bytes has no terminator. A string is given by the bytes from its pointer on.

The text of a name (`nameText`) is its bytes up to the first zero, 14 of them at most : `namecmp` compares the texts of two names
(`namecmp_eq_zero`), and `strncpy` keeps the text (`nameText_dirent`).
-/

namespace Xv6

abbrev DIRSIZ : ℕ := 14

/-! ## Strings -/

namespace Str

/-- The loop of `strncmp`, with `n` bytes from position `i` on to go. -/
def strncmp (p q : ℕ → UInt8) : ℕ → ℕ → ℤ
  | 0, _ => 0
  | n + 1, i => if p i ≠ 0 ∧ p i = q i then strncmp p q n (i + 1) else (p i).toNat - (q i).toNat

/-- The `n` bytes that `strncpy` stores, from position `i` of `t` on. -/
def strncpy (t : ℕ → UInt8) : ℕ → ℕ → List UInt8
  | 0, _ => []
  | n + 1, i => if t i ≠ 0 then t i :: strncpy t n (i + 1) else List.replicate (n + 1) 0

/-- The bytes of a string up to the first zero, at most `n` from position `i` on. -/
def textFrom (t : ℕ → UInt8) : ℕ → ℕ → List UInt8
  | 0, _ => []
  | n + 1, i => if t i ≠ 0 then t i :: textFrom t n (i + 1) else []

theorem strncmp_eq_zero (p q : ℕ → UInt8) (n : ℕ) : ∀ i, strncmp p q n i = 0 ↔ textFrom p n i = textFrom q n i := by
  induction n with
  | zero => exact fun i => iff_of_true rfl rfl
  | succ n ih =>
    intro i
    rw [strncmp, textFrom, textFrom]
    by_cases heq : p i = q i
    · by_cases h0 : p i = 0
      · rw [if_neg (fun h => h.1 h0), if_neg (not_not.mpr h0), if_neg (not_not.mpr (heq ▸ h0)), heq, Int.sub_self]
        exact iff_of_true rfl rfl
      · rw [if_pos ⟨h0, heq⟩, if_pos h0, if_pos (heq ▸ h0), ih, heq, List.cons_inj_right]
    · rw [if_neg fun h => heq h.2]
      refine iff_of_false (fun h => heq (UInt8.toNat_inj.mp (by omega))) fun h => ?_
      split_ifs at h with hp hq hq
      · exact heq (List.cons.inj h).1
      · exact heq ((not_not.mp hp).trans (not_not.mp hq).symm)

theorem strncpy_length (t : ℕ → UInt8) (n : ℕ) : ∀ i, (strncpy t n i).length = n := by
  induction n with
  | zero => exact fun i => rfl
  | succ n ih =>
    intro i
    rw [strncpy]
    split_ifs
    · rw [List.length_cons, ih]
    · exact List.length_replicate

/-- A copy has the same text. -/
theorem textFrom_strncpy (t : ℕ → UInt8) (u : ℕ → UInt8) (n : ℕ) : ∀ i j,
    (∀ k, k < n → u (j + k) = (strncpy t n i).getD k 0) → textFrom u n j = textFrom t n i := by
  induction n with
  | zero => exact fun i j h => rfl
  | succ n ih =>
    intro i j hu
    rw [strncpy] at hu
    by_cases h0 : t i = 0
    · rw [if_neg (not_not.mpr h0)] at hu
      have hfirst : u j = 0 := hu 0 (Nat.succ_pos n)
      rw [textFrom, textFrom, if_neg (not_not.mpr h0), if_neg (not_not.mpr hfirst)]
    · rw [if_pos h0] at hu
      have hfirst : u j = t i := hu 0 (Nat.succ_pos n)
      rw [textFrom, textFrom, hfirst, if_pos h0, if_pos h0, ih (i + 1) (j + 1) fun k hk => ?_]
      rw [Nat.add_assoc, Nat.add_comm 1, hu (k + 1) (Nat.succ_lt_succ hk), List.getD_cons_succ]

end Str

open Str

/-! ## Names -/

def namecmp (s t : ℕ → UInt8) : ℤ :=
  Str.strncmp s t DIRSIZ 0

/-- The text of a name. -/
def nameText (t : ℕ → UInt8) : List UInt8 :=
  textFrom t DIRSIZ 0

/-- `namecmp` compares texts. -/
theorem namecmp_eq_zero (s t : ℕ → UInt8) : namecmp s t = 0 ↔ nameText s = nameText t :=
  Str.strncmp_eq_zero s t DIRSIZ 0

/-! ## struct dirent -/

/-- The size of `struct dirent`. -/
abbrev DIRENT : ℕ := 16

/-- `de.inum`, for the bytes of an entry. -/
def direntInum (de : List UInt8) : ℕ :=
  (de.getD 0 0).toNat + 256 * (de.getD 1 0).toNat

/-- `de.name` -/
def direntName (de : List UInt8) (i : ℕ) : UInt8 :=
  de.getD (2 + i) 0

/-- The bytes of an entry; the inode number is stored as a `ushort`. -/
def dirent (inum : ℕ) (name : List UInt8) : List UInt8 :=
  UInt8.ofNat inum :: UInt8.ofNat (inum / 256) :: name

theorem direntInum_dirent {inum : ℕ} (h : inum < 65536) (name : List UInt8) : direntInum (dirent inum name) = inum := by
  change (UInt8.ofNat inum).toNat + 256 * (UInt8.ofNat (inum / 256)).toNat = inum
  rw [UInt8.toNat_ofNat', UInt8.toNat_ofNat']
  omega

theorem nameText_dirent (inum : ℕ) (t : ℕ → UInt8) :
    nameText (direntName (dirent inum (strncpy t DIRSIZ 0))) = nameText t := by
  refine textFrom_strncpy t _ DIRSIZ 0 0 fun k _ => ?_
  rw [direntName, Nat.zero_add, Nat.add_comm, dirent, List.getD_cons_succ, List.getD_cons_succ]

/-! ## dirlookup and dirlink -/

/-- The loop of `dirlookup`, at most `n` turns; returns the inode and the offset of its entry. -/
def dirlookupFrom (dp : InodeId) (name : ℕ → UInt8) : ℕ → ℕ → FsM (Option (InodeId × ℕ))
  | 0, _ => return none
  | n + 1, off => do
    if off < ((← get).inode dp).d.size then
      let (r, de) ← readi dp (fun _ => true) off DIRENT
      if r ≠ DIRENT then throw .dirlookupRead
      if direntInum de ≠ 0 ∧ namecmp name (direntName de) = 0 then
        let ip ← iget ((← get).inode dp).dev (direntInum de)
        return some (ip, off)
      else dirlookupFrom dp name n (off + DIRENT)
    else return none

def dirlookup (dp : InodeId) (name : ℕ → UInt8) : FsM (Option (InodeId × ℕ)) := do
  let d := ((← get).inode dp).d
  if d.type ≠ T_DIR then throw .dirlookupNotDir
  dirlookupFrom dp name ((d.size + 15) / DIRENT) 0

/-- The loop of `dirlink` for a free entry, at most `n` turns; returns its offset, or the end. -/
def direntFree (dp : InodeId) : ℕ → ℕ → FsM ℕ
  | 0, off => return off
  | n + 1, off => do
    if off < ((← get).inode dp).d.size then
      let (r, de) ← readi dp (fun _ => true) off DIRENT
      if r ≠ DIRENT then throw .dirlinkRead
      if direntInum de = 0 then return off
      direntFree dp n (off + DIRENT)
    else return off

def dirlink (dp : InodeId) (name : ℕ → UInt8) (inum : ℕ) : FsM ℤ := do
  match ← dirlookup dp name with
  | some (ip, _) =>
    iput ip
    return -1
  | none =>
    let off ← direntFree dp ((((← get).inode dp).d.size + 15) / DIRENT) 0
    let de := dirent inum (strncpy name DIRSIZ 0)
    if (← writei dp (fun a => de[a]?) off DIRENT) ≠ DIRENT then return -1
    return 0

/-- What sys_unlink does to the entry at `off`. -/
def clearDirent (dp : InodeId) (off : ℕ) : FsM Unit := do
  let de := List.replicate DIRENT (0 : UInt8)
  if (← writei dp (fun a => de[a]?) off DIRENT) ≠ DIRENT then throw .unlinkWritei

end Xv6
