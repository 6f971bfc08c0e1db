import Xv6.FileContents
import Xv6.InodeTable

/-!
# Reading open files

`fileread` of kernel/file.c. A file that is open is a `struct file`, returned with its offset moved. What pipes and
devices do is left open (`Io`).

`fileread` passes its count on to `readi`, where an `int` becomes a `uint`. If it is negative and does not wrap around
at the offset of the file, all that is left of the file is read (`fileread_transfers`).
-/

namespace Xv6

abbrev NDEV : ℕ := 10

namespace Ftable

inductive FdType
  | FD_NONE
  | FD_PIPE
  | FD_INODE
  | FD_DEVICE
deriving DecidableEq

/-- `struct file` -/
structure File where
  type : FdType
  ref : ℤ
  readable : Bool
  writable : Bool
  pipe : ℕ
  ip : InodeId
  off : ℕ
  major : BitVec 16

/-- What reading pipes and devices does : the results, and the bytes stored. -/
structure Io where
  piperead : ℕ → ℤ → ℤ × List UInt8
  devread : ℕ → Option (ℤ → ℤ × List UInt8)

/-- The conversion of an `int` to a `uint`. -/
def uint (n : ℤ) : ℕ :=
  (n % 4294967296).toNat

/-- The index into `devsw`, if it is one. -/
def File.device (f : File) : Option ℕ :=
  if f.major.toInt < 0 ∨ f.major.toInt ≥ NDEV then none else some f.major.toInt.toNat

/-- `f->off += r`, if `r` is positive. -/
def File.advance (f : File) (r : ℤ) : File :=
  if r > 0 then { f with off := (f.off + r.toNat) % 4294967296 } else f

/-- `fileread`; the result, the bytes stored, and the file after it. -/
def fileread (io : Io) (f : File) (dst : ℕ → Bool) (n : ℤ) : FsM (ℤ × List UInt8 × File) := do
  if !f.readable then return (-1, [], f)
  match f.type with
  | .FD_PIPE =>
    let (r, bytes) := io.piperead f.pipe n
    return (r, bytes, f)
  | .FD_DEVICE =>
    match f.device.bind io.devread with
    | none => return (-1, [], f)
    | some read =>
      let (r, bytes) := read n
      return (r, bytes, f)
  | .FD_INODE =>
    ilock f.ip
    let (r, bytes) ← readi f.ip dst f.off (uint n)
    iunlock f.ip
    return (r, bytes, f.advance r)
  | .FD_NONE => throw .fileread

end Ftable

open Ftable

/-! ## How much is read -/

/-- The first byte of a read from `off` on gets to `dst`. -/
def Fs.Moves (s : Fs) (ip : InodeId) (dst : ℕ → Bool) (off : ℕ) : Prop :=
  dst 0 = true ∧ ∃ b s', bmap ip (off / BSIZE) s = .ok (b, s') ∧ b ≠ 0

variable {s s' : Fs} {ip : InodeId} {dst : ℕ → Bool} {off n : ℕ}

/-- Whatever the state, `readi` returns the number of bytes it has stored, or -1. -/
theorem readiFrom_count (ip : InodeId) (dst : ℕ → Bool) (n fuel : ℕ) : ∀ (s : Fs) (tot off : ℕ), tot ≤ n →
    Outcome (readiFrom ip dst n fuel tot off) s
      (fun r _ => tot + r.2.length ≤ n ∧ (r.1 = (tot + r.2.length : ℕ) ∨ r.1 = -1)) fun _ => True := by
  induction fuel with
  | zero => exact fun s tot off htot => .pure ⟨htot, Or.inl rfl⟩
  | succ fuel ih =>
    intro s tot off htot
    rw [readiFrom]
    by_cases hlt : tot < n
    · rw [if_pos hlt]
      refine .bind (.run _ _) fun addr s₁ _ => ?_
      by_cases h0 : addr = 0
      · rw [if_pos h0]
        exact .pure ⟨htot, Or.inl rfl⟩
      · rw [if_neg h0]
        refine .get_bind ?_
        dsimp only
        obtain ⟨m, hm⟩ : ∃ m, min (n - tot) (BSIZE - off % BSIZE) = m := ⟨_, rfl⟩
        have hmle : m ≤ n - tot := hm ▸ Nat.min_le_left _ _
        rw [hm]
        by_cases hroom : room dst tot m < m
        · rw [if_pos hroom]
          refine .pure ⟨?_, Or.inr rfl⟩
          rw [List.length_take, Bytes.getBytes_length]
          omega
        · rw [if_neg hroom]
          refine .bind (ih s₁ (tot + m) (off + m) (by omega)) fun r s₂ hr => .pure ?_
          rwa [List.length_append, Bytes.getBytes_length, ← Nat.add_assoc]
    · rw [if_neg hlt]
      exact .pure ⟨htot, Or.inl rfl⟩

/-- Something is stored if the first byte is. -/
theorem readiFrom_moves (ip : InodeId) (dst : ℕ → Bool) {n fuel : ℕ} (hn : 0 < n) (hfuel : 0 < fuel) (s : Fs) (off : ℕ) :
    Outcome (readiFrom ip dst n fuel 0 off) s (fun r _ => r.2 ≠ [] ↔ s.Moves ip dst off) fun _ => True := by
  obtain ⟨fuel, rfl⟩ := Nat.exists_eq_add_one.mpr hfuel
  have hpos : off % 1024 < 1024 := Nat.mod_lt _ (by decide)
  rw [readiFrom, if_pos hn]
  refine .bind (.run _ _) fun b s₁ hmap => ?_
  have hmoves : s.Moves ip dst off ↔ dst 0 = true ∧ b ≠ 0 := by
    refine and_congr_right fun _ => ⟨fun h => ?_, fun h => ⟨b, s₁, hmap, h⟩⟩
    obtain ⟨b', s₁', heq, h0⟩ := h
    rw [hmap] at heq
    cases heq
    exact h0
  rw [hmoves]
  by_cases h0 : b = 0
  · rw [if_pos h0]
    exact .pure (iff_of_false (fun h => h rfl) fun h => h.2 h0)
  · rw [if_neg h0, and_iff_left h0]
    refine .get_bind ?_
    dsimp only
    obtain ⟨m, hm⟩ : ∃ m, min (n - 0) (BSIZE - off % BSIZE) = m := ⟨_, rfl⟩
    have hm0 : 0 < m := hm ▸ Nat.lt_min.mpr ⟨hn, Nat.sub_pos_of_lt hpos⟩
    obtain ⟨hle, hdst, hstop⟩ := room_spec dst 0 m
    rw [hm]
    by_cases hroom : room dst 0 m < m
    · rw [if_pos hroom]
      refine .pure ?_
      rw [← List.length_pos_iff, List.length_take, Bytes.getBytes_length, Nat.min_eq_left hle]
      refine ⟨fun h => hdst 0 h, fun h => Nat.pos_of_ne_zero fun hzero => ?_⟩
      have hfalse := hstop hroom
      rw [hzero, h] at hfalse
      cases hfalse
    · rw [if_neg hroom]
      refine .bind (.run _ _) fun r s₂ _ => .pure ?_
      rw [← List.length_pos_iff, List.length_append, Bytes.getBytes_length]
      exact iff_of_true (by omega) (hdst 0 (by omega))

theorem readi_count (ip : InodeId) (dst : ℕ → Bool) {off n : ℕ} (hoff : off < 4294967296) (hn : n < 4294967296) (s : Fs) :
    Outcome (readi ip dst off n) s (fun r _ => r.2.length ≤ n ∧ off + r.2.length < 4294967296 ∧
      (r.1 = (r.2.length : ℕ) ∨ r.1 = -1) ∧
      (r.2 ≠ [] ↔ 0 < n ∧ off + n < 4294967296 ∧ off < (s.inode ip).d.size ∧ s.Moves ip dst off)) fun _ => True := by
  rw [readi]
  refine .get_bind ?_
  dsimp only
  by_cases hnone : off > (s.inode ip).d.size ∨ (off + n) % 4294967296 < off
  · rw [if_pos hnone]
    refine .pure ⟨Nat.zero_le _, hoff, Or.inl rfl, iff_of_false (fun h => h rfl) fun h => ?_⟩
    rw [Nat.mod_eq_of_lt h.2.1] at hnone
    omega
  · obtain ⟨hle, hwrap⟩ := not_or.mp hnone
    rw [if_neg hnone]
    have hsum : off + n < 4294967296 := by omega
    rw [Nat.mod_eq_of_lt hsum]
    obtain ⟨k, hk⟩ : ∃ k, (if off + n > (s.inode ip).d.size then (s.inode ip).d.size - off else n) = k := ⟨_, rfl⟩
    have hkeq : k = min n ((s.inode ip).d.size - off) := by
      rw [← hk]
      split_ifs <;> omega
    rw [hk]
    obtain hk0 | hk0 := Nat.eq_zero_or_pos k
    · rw [hk0]
      refine .pure ⟨Nat.zero_le _, hoff, Or.inl rfl, iff_of_false (fun h => h rfl) fun h => ?_⟩
      omega
    · refine ((readiFrom_count ip dst k k s 0 off (Nat.zero_le k)).and (readiFrom_moves ip dst hk0 hk0 s off)).mono
        fun r s' h => ?_
      obtain ⟨⟨hlen, hres⟩, hmoves⟩ := h
      rw [Nat.zero_add] at hlen hres
      refine ⟨by omega, by omega, hres, hmoves.trans ?_⟩
      rw [and_iff_right (by omega), and_iff_right hsum, and_iff_right (by omega)]

theorem uint_lt (n : ℤ) : uint n < 4294967296 := by
  rw [uint]
  omega

theorem uint_of_nonneg {n : ℤ} (h : 0 ≤ n) (hlt : n < 2147483648) : (uint n : ℤ) = n := by
  rw [uint]
  omega

theorem uint_of_neg {n : ℤ} (h : n < 0) (hge : -2147483648 ≤ n) : (uint n : ℤ) = n + 4294967296 := by
  rw [uint]
  omega

theorem fileread_outcome (io : Io) {f : File} (dst : ℕ → Bool) (n : ℤ) (s : Fs) (hf : f.type = .FD_INODE)
    (hread : f.readable = true) (hoff : f.off < 4294967296) : Outcome (fileread io f dst n) s (fun x _ =>
      x.2.2 = f.advance x.1 ∧ x.2.1.length ≤ uint n ∧ f.off + x.2.1.length < 4294967296 ∧
      (x.1 = (x.2.1.length : ℕ) ∨ x.1 = -1) ∧
      (x.2.1 ≠ [] ↔ 0 < uint n ∧ f.off + uint n < 4294967296 ∧ f.off < (s.loaded f.ip).size ∧
        (s.hold f.ip).Moves f.ip dst f.off)) fun _ => True := by
  rw [fileread, hread, hf]
  refine .bind ((ilock_outcome s f.ip).mono_error fun _ _ => trivial) fun _ s₁ hs₁ => ?_
  obtain ⟨rfl, -⟩ := hs₁
  refine .bind (readi_count f.ip dst hoff (uint_lt n) _) fun x s₂ hx => ?_
  refine .bind (.run _ _) fun _ s₃ _ => .pure ⟨rfl, ?_⟩
  rwa [hold_inode] at hx

/-- `fileread` stores no more than the count, returns how much it has stored and moves the offset by that, unless the count
is negative, the sum of the offset and the count too, and there is a byte to be read. -/
theorem fileread_transfers {io : Io} {f f' : File} {n r : ℤ} {bytes : List UInt8} (hf : f.type = .FD_INODE)
    (hoff : f.off < 4294967296) (hn : -2147483648 ≤ n ∧ n < 2147483648)
    (hrun : fileread io f dst n s = .ok ((r, bytes, f'), s')) :
    ((bytes.length : ℤ) ≤ max n 0 ∧ (0 ≤ r → (bytes.length : ℤ) = r ∧ (f'.off : ℤ) = f.off + r) ∧
      (r = -1 → f'.off = f.off)) ↔
    ¬ (f.readable = true ∧ n < 0 ∧ f.off + n < 0 ∧ f.off < (s.loaded f.ip).size ∧ (s.hold f.ip).Moves f.ip dst f.off) := by
  cases hread : f.readable with
  | false =>
    rw [fileread, hread] at hrun
    cases hrun
    refine iff_of_true ⟨le_max_right n 0, fun h => ?_, fun _ => rfl⟩ fun h => Bool.false_ne_true h.1
    exact absurd h (by decide)
  | true =>
    obtain ⟨hf', hlen, hsum, hres, hmoves⟩ := (fileread_outcome io dst n s hf hread hoff).ok hrun
    dsimp only at hf' hlen hsum hres hmoves
    have hadvance : (0 ≤ r → (bytes.length : ℤ) = r ∧ (f'.off : ℤ) = f.off + r) ∧ (r = -1 → f'.off = f.off) := by
      rw [hf', File.advance]
      obtain rfl | rfl := hres
      · refine ⟨fun _ => ⟨rfl, ?_⟩, fun h => absurd h (by omega)⟩
        split_ifs with hpos
        · rw [Int.toNat_natCast, Nat.mod_eq_of_lt hsum]
          exact Int.natCast_add _ _
        · omega
      · exact ⟨fun h => absurd h (by decide), fun _ => rfl⟩
    rw [and_iff_left hadvance, and_iff_right rfl]
    obtain hneg | hnonneg := Int.lt_or_le n 0
    · have hu := uint_of_neg hneg hn.1
      rw [max_eq_right (Int.le_of_lt hneg), Int.natCast_nonpos_iff, List.length_eq_zero_iff, ← not_ne_iff, hmoves,
        and_iff_right (by omega), and_iff_right hneg]
      refine not_congr (and_congr_left fun _ => ?_)
      omega
    · have hu := uint_of_nonneg hnonneg hn.2
      exact iff_of_true (by omega) fun h => absurd h.1 (by omega)

/-- A disk with one inode, a file of one byte in block 2. -/
def byteDisk : Fs :=
  .blank ⟨3, 1, 1, 0, 1⟩ ((Bytes.zero BSIZE).setByte 0 7)
    ⟨ROOTDEV, 0, 1, false, true, ⟨T_FILE, 0, 0, 1, 1, fun k => if k = 0 then 2 else 0⟩⟩

/-- The file of `byteDisk`, open for reading. -/
def byteFile : File :=
  ⟨.FD_INODE, 1, true, false, 0, ⟨0, by decide⟩, 0, 0⟩

/-- Pipes and devices that do nothing. -/
def idleIo : Io :=
  ⟨fun _ _ => (0, []), fun _ => none⟩

theorem exists_ok {ε α β : Type} {x : Except ε α} {g : α → β} {b : β} (h : x.toOption.map g = some b) :
    ∃ a, x = .ok a ∧ g a = b := by
  cases x with
  | error e => cases h
  | ok a => exact ⟨a, rfl, Option.some.inj h⟩

/-- A count of -1 reads the whole file. -/
theorem fileread_negative : ∃ r bytes f' s', fileread idleIo byteFile (fun _ => true) (-1) byteDisk = .ok ((r, bytes, f'), s') ∧
    max (-1) 0 < (bytes.length : ℤ) := by
  have h : (fileread idleIo byteFile (fun _ => true) (-1) byteDisk).toOption.map (fun x => x.1.2.1.length) = some 1 := by
    decide +kernel
  obtain ⟨⟨⟨r, bytes, f'⟩, s'⟩, hrun, hlen⟩ := exists_ok h
  refine ⟨r, bytes, f', s', hrun, ?_⟩
  change bytes.length = 1 at hlen
  rw [hlen]
  decide

/-- A count of 5 reads it too. -/
theorem fileread_transfers_byte : ∃ r bytes f' s', fileread idleIo byteFile (fun _ => true) 5 byteDisk = .ok ((r, bytes, f'), s') ∧
    bytes.length = 1 ∧ (bytes.length : ℤ) ≤ max 5 0 ∧ (0 ≤ r → (bytes.length : ℤ) = r ∧ (f'.off : ℤ) = 0 + r) ∧
    (r = -1 → f'.off = 0) := by
  have h : (fileread idleIo byteFile (fun _ => true) 5 byteDisk).toOption.map (fun x => x.1.2.1.length) = some 1 := by
    decide +kernel
  obtain ⟨⟨⟨r, bytes, f'⟩, s'⟩, hrun, hlen⟩ := exists_ok h
  refine ⟨r, bytes, f', s', hrun, hlen, ?_⟩
  exact (fileread_transfers rfl (by decide) (by decide) hrun).mpr fun h => absurd h.2.1 (by decide)

end Xv6
