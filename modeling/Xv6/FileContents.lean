import Mathlib.Data.List.TakeWhile
import Xv6.FileData

/-!
# The contents of a file

An inode whose blocks below its size are allocated (`Fs.Filled`) is a list of bytes (`Fs.contents`). `readi` returns a
piece of the list, and `writei` replaces one, which may go beyond the end (`splice`).

An inode with holes is read too : `bmap` then takes new blocks for the holes (`Fs.Fetched`).
-/

set_option linter.unusedSectionVars false

namespace Xv6

theorem room_spec (dst : ℕ → Bool) (tot m : ℕ) : room dst tot m ≤ m ∧ (∀ i, i < room dst tot m → dst (tot + i) = true) ∧
    (room dst tot m < m → dst (tot + room dst tot m) = false) := by
  set p := fun k => dst (tot + k) with hp
  have hlen : (List.range m).length = m := List.length_range
  have hpart := List.takeWhile_prefix p (l := List.range m)
  have hroom : room dst tot m = ((List.range m).takeWhile p).length := rfl
  rw [hroom]
  refine ⟨hpart.length_le.trans_eq hlen, fun i hi => ?_, fun hlt => ?_⟩
  · have hget := hpart.getElem hi
    rw [List.getElem_range] at hget
    have hmem := List.mem_takeWhile_imp (List.getElem_mem hi)
    rwa [hget] at hmem
  · have happ := List.takeWhile_append_dropWhile (p := p) (l := List.range m)
    have hdrop : 0 < ((List.range m).dropWhile p).length := by
      have hsum := congrArg List.length happ
      rw [List.length_append, hlen] at hsum
      omega
    have hnot := List.dropWhile_get_zero_not p _ hdrop
    have hget : ((List.range m).dropWhile p).get ⟨0, hdrop⟩ = ((List.range m).takeWhile p).length := by
      have hsplit := List.getElem_of_eq happ (i := ((List.range m).takeWhile p).length)
        (by rw [List.length_append]; omega)
      rw [List.getElem_append_right le_rfl, List.getElem_range] at hsplit
      simpa only [Nat.sub_self, List.get_eq_getElem] using hsplit
    rw [hget, Bool.not_eq_true] at hnot
    exact hnot

namespace Fs

variable {s s' s₁ : Fs} {ip : InodeId} {d : Dinode} {off r n : ℕ} {v : ℕ → UInt8} {dst : ℕ → Bool}

/-! ## Reading -/

theorem Wrote.fileByte_some {lo : ℕ} (h : Wrote ip lo lo v s s') {o : ℕ} {x : UInt8}
    (hx : s.fileByte (s.inode ip).d o = some x) : s'.fileByte (s'.inode ip).d o = some x := by
  cases hy : s'.fileByte (s'.inode ip).d o with
  | none =>
    rw [h.fileByte_none hy] at hx
    cases hx
  | some y => rw [h.bytes o y hy, if_neg (by omega), hx, Option.getD_some]

theorem reads_block {bn p m : ℕ} (hr : s.fileBlock d bn = r) (h0 : r ≠ 0) (hp : p + m ≤ 1024) :
    Reads (s.fileByte d) (1024 * bn + p) ((s.block r).getBytes p m) := by
  induction m generalizing p with
  | zero => trivial
  | succ m ih =>
    rw [Bytes.getBytes_succ]
    refine ⟨?_, ih (p := p + 1) (by omega)⟩
    rw [fileByte_eq_some, show (1024 * bn + p) / 1024 = bn by omega, show (1024 * bn + p) % 1024 = p by omega, hr]
    exact ⟨h0, rfl⟩

/-- Reading on from `tot`, `readi` comes to a hole of the file. -/
def Meets (s : Fs) (d : Dinode) (dst : ℕ → Bool) (off n tot : ℕ) : Prop :=
  ∃ o, off + tot ≤ o ∧ o < off + n ∧ s.fileByte d o = none ∧ ∀ a, tot ≤ a → off + a < 1024 * (o / 1024) → dst a = true

/-- The loop of `readi` has gone on from `tot`, and its result is `r`. -/
structure Fetched (ip : InodeId) (dst : ℕ → Bool) (off n tot : ℕ) (r : ℤ × List UInt8) (s s' : Fs) : Prop where
  blocks : s'.Blocks (s'.live ip)
  wrote : ∀ lo v, Wrote ip lo lo v s s'
  le : tot + r.2.length ≤ n
  reads : Reads (s'.fileByte (s'.inode ip).d) (off + tot) r.2
  stored : ∀ i, i < r.2.length → dst (tot + i) = true
  stop : r.1 = (tot + r.2.length : ℕ) ∧ (tot + r.2.length = n ∨ s'.fileByte (s'.inode ip).d (off + tot + r.2.length) = none) ∨
    r.1 = -1 ∧ tot + r.2.length < n ∧ dst (tot + r.2.length) = false
  same : (∀ o, off + tot ≤ o → o < off + n → s.fileByte (s.inode ip).d o ≠ none) → s' = s

namespace Fetched

variable {tot : ℕ}

theorem refl (hB : s.Blocks (s.live ip)) : Fetched ip dst off tot tot (tot, []) s s where
  blocks := hB
  wrote lo v := .refl ip lo v s
  le := le_rfl
  reads := trivial
  stored _ hi := absurd hi (Nat.not_lt_zero _)
  stop := Or.inl ⟨rfl, Or.inl rfl⟩
  same _ := rfl

section Step

variable (hm : Bmapped ip ((off + tot) / 1024) r s s₁) (htot : tot < n)
include hm htot

/-- There was no block. -/
theorem of_full (h0 : r = 0) : Fetched ip dst off n tot (tot, []) s s₁ where
  blocks := hm.blocks
  wrote := hm.wrote
  le := Nat.le_of_lt htot
  reads := trivial
  stored _ hi := absurd hi (Nat.not_lt_zero _)
  stop := Or.inl ⟨rfl, Or.inr (fileByte_eq_none.mpr (hm.result.trans h0))⟩
  same h := hm.same fun hnone => h _ le_rfl (by omega) (fileByte_eq_none.mpr hnone)

/-- What comes from the block. -/
theorem reads_chunk (h0 : r ≠ 0) {m : ℕ} (hp : (off + tot) % 1024 + m ≤ 1024) :
    Reads (s₁.fileByte (s₁.inode ip).d) (off + tot) ((s₁.block r).getBytes ((off + tot) % 1024) m) := by
  have h := reads_block hm.result h0 hp
  rwa [Nat.div_add_mod] at h

/-- The copy from the block stops where `dst` cannot be written. -/
theorem of_short (h0 : r ≠ 0) {m : ℕ} (hm0 : m = min (n - tot) (1024 - (off + tot) % 1024)) (hroom : room dst tot m < m) :
    Fetched ip dst off n tot (-1, ((s₁.block r).getBytes ((off + tot) % 1024) m).take (room dst tot m)) s s₁ := by
  obtain ⟨hle, hdst, hstop⟩ := room_spec dst tot m
  have hlen : (((s₁.block r).getBytes ((off + tot) % 1024) m).take (room dst tot m)).length = room dst tot m := by
    rw [List.length_take, Bytes.getBytes_length, Nat.min_eq_left hle]
  have hreads := reads_chunk hm htot h0 (m := m) (by omega)
  rw [← List.take_append_drop (room dst tot m) ((s₁.block r).getBytes ((off + tot) % 1024) m), reads_append] at hreads
  refine ⟨hm.blocks, hm.wrote, ?_, hreads.1, fun i hi => hdst i (hlen ▸ hi), ?_, fun h => ?_⟩
  · dsimp only
    omega
  · dsimp only
    rw [hlen]
    exact Or.inr ⟨rfl, by omega, hstop hroom⟩
  · exact hm.same fun hnone => h _ le_rfl (by omega) (fileByte_eq_none.mpr hnone)

/-- A whole copy from the block, and then come the other ones. -/
theorem step (h0 : r ≠ 0) {m : ℕ} (hm0 : m = min (n - tot) (1024 - (off + tot) % 1024)) (hroom : ¬ room dst tot m < m)
    {x : ℤ × List UInt8} (h : Fetched ip dst off n (tot + m) x s₁ s') :
    Fetched ip dst off n tot (x.1, (s₁.block r).getBytes ((off + tot) % 1024) m ++ x.2) s s' := by
  obtain ⟨hle, hdst, -⟩ := room_spec dst tot m
  have hlen : ((s₁.block r).getBytes ((off + tot) % 1024) m ++ x.2).length = m + x.2.length := by
    rw [List.length_append, Bytes.getBytes_length]
  have hreads := reads_chunk hm htot h0 (m := m) (by omega)
  have hw := h.wrote 0 fun _ => 0
  have hxle := h.le
  refine ⟨h.blocks, fun lo v => (hm.wrote lo v).trans (h.wrote lo v) le_rfl le_rfl, ?_, ?_, fun i hi => ?_, ?_, fun hall => ?_⟩
  · dsimp only
    omega
  · refine reads_append.mpr ⟨hreads.mono fun o y hy => hw.fileByte_some hy, ?_⟩
    rw [Bytes.getBytes_length, Nat.add_assoc]
    exact h.reads
  · dsimp only at hi
    obtain hi' | hi' := Nat.lt_or_ge i m
    · exact hdst i (by omega)
    · have hrest := h.stored (i - m) (by omega)
      rwa [Nat.add_assoc, Nat.add_sub_cancel' hi'] at hrest
  · have hstop := h.stop
    dsimp only
    rw [Nat.add_assoc off] at hstop
    rw [hlen, show off + tot + (m + x.2.length) = off + (tot + m + x.2.length) by omega, ← Nat.add_assoc]
    exact hstop
  · have hsame := hm.same fun hnone => hall _ le_rfl (by omega) (fileByte_eq_none.mpr hnone)
    rw [h.same fun o hlo hhi => ?_, hsame]
    rw [hsame]
    exact hall o (by omega) hhi

/-- The holes that come next are holes that came next before the step. -/
theorem canTake (h0 : r ≠ 0) {m : ℕ} (hroom : ¬ room dst tot m < m)
    (hcan : s.Meets (s.inode ip).d dst off n tot → s.CanTake)
    (hmeets : s₁.Meets (s₁.inode ip).d dst off n (tot + m)) : s₁.CanTake := by
  obtain ⟨hle, hdst, -⟩ := room_spec dst tot m
  by_cases hhere : s.fileBlock (s.inode ip).d ((off + tot) / 1024) = 0
  · have hcan := hcan ⟨off + tot, le_rfl, by omega, fileByte_eq_none.mpr hhere, fun a _ ha => by omega⟩
    have hw := hm.wrote 0 fun _ => 0
    have hres := hm.result
    have hlt := lt_of_fileBlock (hres ▸ h0)
    rw [fileBlock_of_lt hlt] at hres hhere
    obtain ⟨hfree, hsize⟩ := hw.fresh _ hhere (hres ▸ h0)
    intro _
    rw [hw.op]
    exact hcan ⟨_, hsize, hfree⟩
  · obtain rfl := hm.same hhere
    obtain ⟨o, hlo, hhi, hnone, hall⟩ := hmeets
    refine hcan ⟨o, by omega, hhi, hnone, fun a ha hao => ?_⟩
    obtain hlt | hge := Nat.lt_or_ge a (tot + m)
    · have h := hdst (a - tot) (by omega)
      rwa [Nat.add_sub_cancel' ha] at h
    · exact hall a hge hao

end Step

end Fetched

end Fs

open Fs

variable {s : Fs} {ip : InodeId} {dst : ℕ → Bool} {off n : ℕ}

theorem readiFrom_ends (hoff : off + n ≤ 274432) (fuel : ℕ) : ∀ {s : Fs} {tot : ℕ}, s.Blocks (s.live ip) →
    (s.Meets (s.inode ip).d dst off n tot → s.CanTake) → tot ≤ n → n ≤ tot + fuel → Ends (readiFrom ip dst n fuel tot (off + tot)) s fun r s' => Fetched ip dst off n tot r s s' := by
  induction fuel with
  | zero =>
    intro s tot hB hcan htot hfuel
    obtain rfl : tot = n := by omega
    exact .pure (.refl hB)
  | succ fuel ih =>
    intro s tot hB hcan htot hfuel
    rw [readiFrom]
    by_cases hlt : tot < n
    · rw [if_pos hlt]
      have hhere : s.fileBlock (s.inode ip).d ((off + tot) / 1024) = 0 → s.CanTake := fun h =>
        hcan ⟨off + tot, le_rfl, by omega, fileByte_eq_none.mpr h, fun a _ ha => by omega⟩
      refine .bind (bmap_ends hB hhere (show (off + tot) / 1024 < 268 by omega)) fun r s₁ hm => ?_
      by_cases h0 : r = 0
      · rw [if_pos h0]
        exact .pure (.of_full hm hlt h0)
      · rw [if_neg h0]
        refine .get_bind ?_
        obtain ⟨m, hm0⟩ : ∃ m, min (n - tot) (BSIZE - (off + tot) % BSIZE) = m := ⟨_, rfl⟩
        have hm1 : m = min (n - tot) (1024 - (off + tot) % 1024) := hm0.symm
        have hpos : (off + tot) % 1024 < 1024 := Nat.mod_lt _ (by decide)
        dsimp only
        rw [hm0]
        by_cases hroom : room dst tot m < m
        · rw [if_pos hroom]
          exact .pure (.of_short hm hlt h0 hm1 hroom)
        · rw [if_neg hroom, Nat.add_assoc]
          refine .bind (ih hm.blocks (Fetched.canTake hm hlt h0 hroom hcan) (by omega) (by omega)) fun x s' h => ?_
          exact .pure (.step hm hlt h0 hm1 hroom h)
    · rw [if_neg hlt]
      obtain rfl : tot = n := by omega
      exact .pure (.refl hB)

theorem readi_ends (hB : s.Blocks (s.live ip)) (hsize : (s.inode ip).d.size ≤ 274432) (hoff : off ≤ (s.inode ip).d.size)
    (hn : off + n < 4294967296)
    (hcan : s.Meets (s.inode ip).d dst off (min n ((s.inode ip).d.size - off)) 0 → s.CanTake) : Ends (readi ip dst off n) s fun r s' =>
      Fetched ip dst off (min n ((s.inode ip).d.size - off)) 0 r s s' := by
  have hmin : (if off + n > (s.inode ip).d.size then (s.inode ip).d.size - off else n) =
      min n ((s.inode ip).d.size - off) := by
    split_ifs <;> omega
  rw [readi]
  refine .get_bind ?_
  dsimp only
  rw [Nat.mod_eq_of_lt hn, if_neg (by omega), hmin]
  exact readiFrom_ends (by omega) _ hB hcan (Nat.zero_le _) (by omega)

theorem readi_none (h : off > (s.inode ip).d.size ∨ (off + n) % 4294967296 < off) :
    Ends (readi ip dst off n) s fun r s' => r = (0, []) ∧ s' = s := by
  rw [readi]
  refine .get_bind ?_
  dsimp only
  rw [if_pos h]
  exact .pure ⟨rfl, rfl⟩

/-! ## Files as lists of bytes -/

/-- A piece of a list is replaced, or goes beyond its end. -/
def splice {α : Type} (l : List α) (off : ℕ) (data : List α) : List α :=
  l.take off ++ data ++ l.drop (off + data.length)

theorem splice_length {α : Type} {l data : List α} {off : ℕ} (h : off ≤ l.length) :
    (splice l off data).length = max l.length (off + data.length) := by
  rw [splice, List.length_append, List.length_append, List.length_take, List.length_drop]
  omega

theorem splice_nil {α : Type} (l : List α) (off : ℕ) : splice l off [] = l := by
  rw [splice, List.append_nil, List.length_nil, Nat.add_zero, List.take_append_drop]

theorem splice_getElem? {α : Type} {l data : List α} {off : ℕ} (h : off ≤ l.length) (o : ℕ) :
    (splice l off data)[o]? = if off ≤ o ∧ o < off + data.length then data[o - off]? else l[o]? := by
  have hlen : (l.take off).length = off := List.length_take_of_le h
  rw [splice, List.append_assoc]
  obtain hlt | hge := Nat.lt_or_ge o off
  · rw [List.getElem?_append_left (by rwa [hlen]), List.getElem?_take_of_lt hlt, if_neg (by omega)]
  · rw [List.getElem?_append_right (by rwa [hlen]), hlen]
    obtain hin | hout := Nat.lt_or_ge o (off + data.length)
    · rw [List.getElem?_append_left (by omega), if_pos ⟨hge, hin⟩]
    · rw [List.getElem?_append_right (by omega), List.getElem?_drop, if_neg (by omega)]
      congr 1
      omega

namespace Fs

/-- The blocks below the size are allocated. -/
def Filled (s : Fs) (d : Dinode) : Prop :=
  ∀ o, o < d.size → s.fileByte d o ≠ none

def contents (s : Fs) (d : Dinode) : List UInt8 :=
  (List.range d.size).map fun o => (s.fileByte d o).getD 0

@[simp] theorem contents_length (s : Fs) (d : Dinode) : (s.contents d).length = d.size := by
  rw [contents, List.length_map, List.length_range]

theorem contents_getElem? (s : Fs) (d : Dinode) (o : ℕ) :
    (s.contents d)[o]? = if o < d.size then some ((s.fileByte d o).getD 0) else none := by
  rw [contents, List.getElem?_map]
  split_ifs with h
  · rw [List.getElem?_range h, Option.map_some]
  · rw [List.getElem?_eq_none (by rw [List.length_range]; omega), Option.map_none]

theorem Filled.size_le {d : Dinode} (h : s.Filled d) : d.size ≤ 274432 := by
  by_contra hlt
  refine h 274432 (by omega) (fileByte_eq_none.mpr ?_)
  exact if_neg (by decide)

/-- What is read is a piece of the contents. -/
theorem eq_piece {d : Dinode} {l : List UInt8} (h : Reads (s.fileByte d) off l) (hl : l.length = min n (d.size - off)) :
    l = ((s.contents d).drop off).take n := by
  refine List.ext_getElem (by rw [List.length_take, List.length_drop, contents_length, hl]) fun i hi hi' => ?_
  rw [List.getElem_take, List.getElem_drop]
  simp only [contents, List.getElem_map, List.getElem_range]
  rw [h.get hi, Option.getD_some]

end Fs

/-- `readi` of `ip` returns the pieces of a list, and changes nothing. -/
def ReadsAs (ip : InodeId) (l : List UInt8) (s : Fs) : Prop :=
  ∀ (dst : ℕ → Bool) (off n : ℕ), off < 4294967296 → n < 4294967296 → (∀ a, a < n → dst a = true) →
    Ends (readi ip dst off n) s fun r s' => s' = s ∧
      r = if off ≤ l.length ∧ off + n < 4294967296 then (((min n (l.length - off) : ℕ) : ℤ), (l.drop off).take n) else (0, [])

theorem readsAs_contents (hB : s.Blocks (s.live ip)) (hF : s.Filled (s.inode ip).d) :
    ReadsAs ip (s.contents (s.inode ip).d) s := by
  intro dst off n hoff hn hdst
  rw [contents_length]
  split_ifs with h
  · have hcan : s.Meets (s.inode ip).d dst off (min n ((s.inode ip).d.size - off)) 0 → s.CanTake := by
      rintro ⟨o, -, ho, hnone, -⟩
      exact absurd hnone (hF o (by omega))
    refine (readi_ends hB hF.size_le h.1 h.2 hcan).mono fun r s' hr => ?_
    have hsame := hr.same fun o _ ho => hF o (by omega)
    subst hsame
    have hle := hr.le
    have hstop := hr.stop
    rw [Nat.zero_add] at hstop hle
    have hlen : r.1 = r.2.length ∧ r.2.length = min n ((s'.inode ip).d.size - off) := by
      obtain ⟨hr1, hlen | hnone⟩ | ⟨-, hlt, hfalse⟩ := hstop
      · exact ⟨hr1, hlen⟩
      · refine ⟨hr1, ?_⟩
        by_contra hne
        exact hF _ (by omega) hnone
      · rw [hdst _ (by omega)] at hfalse
        cases hfalse
    exact ⟨rfl, Prod.ext (by rw [hlen.1, hlen.2]) (eq_piece hr.reads hlen.2)⟩
  · refine (readi_none ?_).mono fun r s' hr => ⟨hr.2, hr.1⟩
    omega

namespace Fs

variable {lo hi : ℕ} {v : ℕ → UInt8} {s₁ s' : Fs} {src : ℕ → Option UInt8} {data : List UInt8} {k j : ℕ}

section Other

variable (hB : s.Blocks (s.live ip)) (h : Wrote ip lo hi v s s₁) {i : ℕ} (hne : i ≠ (s.inode ip).inum)
include hB h hne

theorem Wrote.block_other (k : FileSlot) (hk : s.slotAt (s.files i) k ≠ 0) :
    s₁.block (s.slotAt (s.files i) k) = s.block (s.slotAt (s.files i) k) := by
  have hlive : s.live ip i = s.files i := Function.update_of_ne hne ..
  rw [← hlive] at hk ⊢
  obtain ⟨hlo, hlt⟩ := hB.owned.range (i, k) hk
  refine h.data _ hlo hlt (hB.owned.used (i, k) hk) fun l hl => hne ?_
  have hinj := hB.owned.inj (i, k) ((s.inode ip).inum, l) ?_ hk
  · exact congrArg Prod.fst hinj
  · dsimp only
    rw [live_self, hl]

/-- Writing a file does not change the others. -/
theorem Wrote.other (o : ℕ) : s₁.fileByte (s.files i) o = s.fileByte (s.files i) o :=
  fileByte_same (h.block_other hB hne) o

end Other

/-- Another inode is as it was. -/
def Kept (s s' : Fs) (i : ℕ) : Prop :=
  s'.files i = s.files i ∧ ∀ o, s'.fileByte (s'.files i) o = s.fileByte (s.files i) o

/-- The file of `ip` has been written : it has the contents `l`, and all else is as before. -/
structure Rewritten (ip : InodeId) (l : List UInt8) (s s' : Fs) : Prop where
  blocks : s'.Blocks s'.files
  stored : s'.files (s.inode ip).inum = (s'.inode ip).d
  filled : s'.Filled (s'.inode ip).d
  contents : s'.contents (s'.inode ip).d = l
  size : (s'.inode ip).d.size = l.length
  inodes : ∀ i, i ≠ (s.inode ip).inum → Kept s s' i
  memory : ∀ jp, jp ≠ ip → s'.inode jp = s.inode jp
  self : ∃ d, s'.inode ip = { s.inode ip with d := d }

section Write

variable (hB : s.Blocks (s.live ip)) (hin : (s.inode ip).inum < s.sb.ninodes) (hF : s.Filled (s.inode ip).d)
  (hoff : off ≤ (s.inode ip).d.size)

/-- If every byte of the source can be read, no copy fails. -/
theorem Stored.part_eq_zero (hreads : Reads src 0 data) (h : Stored ip src off data.length 0 k j s s₁) : j = 0 := by
  have hle := h.le_n
  obtain (hk | ⟨hj, -⟩) | ⟨hlt, hnone⟩ := h.stop
  · omega
  · exact hj
  · have hsome := hreads.get hlt
    rw [Nat.zero_add, hnone] at hsome
    cases hsome

/-- A write to one block is made or not made. -/
theorem Stored.whole (hoff : off % 1024 + data.length ≤ 1024) (hreads : Reads src 0 data)
    (h : Stored ip src off data.length 0 k 0 s s₁) : k = 0 ∨ k = data.length := by
  have hle := h.le_n
  obtain (hk | ⟨-, hhole, -⟩) | ⟨hlt, hnone⟩ := h.stop
  · exact Or.inr hk
  · by_contra hne
    refine h.wrote.there off (by omega) (by omega) (fileByte_eq_none.mpr ?_)
    rwa [show off / 1024 = (off + k) / 1024 by omega]
  · have hsome := hreads.get hlt
    rw [Nat.zero_add, hnone] at hsome
    cases hsome

include hB hin hF hoff

theorem Stored.rewritten (hn : off + data.length ≤ 274432) (hreads : Reads src 0 data)
    (h : Stored ip src off data.length 0 k 0 s s₁) :
    Rewritten ip (splice (s.contents (s.inode ip).d) off (data.take k)) s (s₁.finish ip (off + k)) := by
  have hw := h.wrote
  have hB₁ := h.blocks
  have hle := h.le_n
  have hi₁ : (s₁.inode ip).inum < s₁.sb.ninodes := by rwa [hw.inum, hw.sb]
  have hsize : max (s₁.inode ip).d.size (off + k) < 4294967296 := by
    have := hF.size_le
    rw [hw.size]
    omega
  have hfiles := finish_files hB₁ hi₁ hsize
  have hstored : (s₁.finish ip (off + k)).files (s.inode ip).inum = ((s₁.finish ip (off + k)).inode ip).d := by
    rw [hfiles, ← hw.inum, Function.update_self]
  have hsz : ((s₁.finish ip (off + k)).inode ip).d.size = max (s.inode ip).d.size (off + k) := by
    rw [finish_inode, ← hw.size]
  have hbyte : ∀ o, (s₁.finish ip (off + k)).fileByte ((s₁.finish ip (off + k)).inode ip).d o =
      s₁.fileByte (s₁.inode ip).d o := fun o => by
    have h := finish_fileByte hB₁ hi₁ hsize (s.inode ip).inum o
    rwa [hstored, ← hw.inum, live_self] at h
  have hlen : (data.take k).length = k := List.length_take_of_le hle
  have hfilled : ∀ o, o < max (s.inode ip).d.size (off + k) → s₁.fileByte (s₁.inode ip).d o ≠ none := by
    intro o ho hnone
    by_cases hold : o < (s.inode ip).d.size
    · exact hF o hold (hw.fileByte_none hnone)
    · exact hw.there o (by omega) (by omega) hnone
  have hcontents : (s₁.finish ip (off + k)).contents ((s₁.finish ip (off + k)).inode ip).d =
      splice (s.contents (s.inode ip).d) off (data.take k) := by
    refine List.ext_getElem? fun o => ?_
    rw [contents_getElem?, splice_getElem? (by rwa [contents_length]), contents_getElem?, hsz, hbyte, hlen]
    by_cases ho : o < max (s.inode ip).d.size (off + k)
    · obtain ⟨x, hx⟩ := Option.ne_none_iff_exists'.mp (hfilled o ho)
      rw [if_pos ho, hx, Option.getD_some, hw.bytes o x hx, Nat.add_zero, Nat.add_zero]
      split_ifs with hnew hold
      · have hget := hreads.get (j := o - off) (by omega)
        rw [Nat.zero_add] at hget
        rw [srcByte, hget, Option.getD_some, List.getElem?_take_of_lt (by omega), List.getElem?_eq_getElem]
      · rfl
      · omega
    · rw [if_neg ho, if_neg (by omega), if_neg (by omega)]
  refine ⟨finish_blocks hB₁ hi₁ hsize, hstored, fun o ho => ?_, hcontents, ?_, fun i hne => ⟨?_, fun o => ?_⟩, fun jp hjp => ?_, ?_⟩
  · rw [hbyte]
    exact hfilled o (hsz ▸ ho)
  · rw [← hcontents, contents_length]
  · rw [hfiles, hw.inum, Function.update_of_ne hne, hw.files]
  · rw [finish_fileByte hB₁ hi₁ hsize, live, hw.inum, Function.update_of_ne hne, hw.files, hw.other hB hne]
  · rw [finish_inode_of_ne hjp, hw.others jp hjp]
  · obtain ⟨addrs, hself⟩ := hw.self
    rw [finish_inode, hself]
    exact ⟨_, rfl⟩

end Write

theorem Rewritten.live {l : List UInt8} (h : Rewritten ip l s s') : s'.live ip = s'.files := by
  obtain ⟨d, hself⟩ := h.self
  have hinum : (s'.inode ip).inum = (s.inode ip).inum := by rw [hself]
  rw [Fs.live, hinum, ← h.stored, Function.update_eq_self]

end Fs

/-- A file is a list of bytes : `readi` reads pieces of it, and `writei` replaces the bytes of its range, as many as
there are blocks for. -/
theorem file_refines (hB : s.Blocks (s.live ip)) (hop : 0 < s.outstanding) (hin : (s.inode ip).inum < s.sb.ninodes)
    (hF : s.Filled (s.inode ip).d) (hoff : off < 4294967296) (hn : n < 4294967296) :
    ReadsAs ip (s.contents (s.inode ip).d) s ∧
    (∀ src, off > (s.inode ip).d.size ∨ 4294967296 ≤ off + n ∨ MAXFILE * BSIZE < off + n →
      Ends (writei ip src off n) s fun r s' => r = -1 ∧ s' = s) ∧
    (∀ src data, data.length = n → Reads src 0 data → off ≤ (s.inode ip).d.size → off + n ≤ MAXFILE * BSIZE →
      Ends (writei ip src off n) s fun r s' => ∃ k ≤ n, r = k ∧ (k < n → ∀ c, c < s.sb.size → s'.free c = false) ∧
        Rewritten ip (splice (s.contents (s.inode ip).d) off (data.take k)) s s' ∧
        (s'.inode ip).d.size = max (s.inode ip).d.size (off + k) ∧
        ReadsAs ip (splice (s.contents (s.inode ip).d) off (data.take k)) s') := by
  refine ⟨readsAs_contents hB hF, fun src h => writei_error ?_, fun src data hlen hreads hle hmax => ?_⟩
  · change _ ∨ _ ∨ 274432 < off + n at h
    change _ ∨ _ ∨ _ > 274432
    omega
  · subst hlen
    refine (writei_ends hB hop hle hmax).mono fun r s' h => ?_
    obtain ⟨k, j, s₁, rfl, h, rfl⟩ := h
    obtain rfl := h.part_eq_zero hreads
    have hre := h.rewritten hB hin hF hle hmax hreads
    have hkn := h.le_n
    refine ⟨k, h.le_n, rfl, fun hlt c hc => ?_, hre, ?_, ?_⟩
    · obtain (hk | ⟨-, -, hfull⟩) | ⟨hlt, hnone⟩ := h.stop
      · omega
      · rw [finish_free h.blocks (by rwa [h.wrote.inum, h.wrote.sb]), hfull c hc]
      · have hsome := hreads.get hlt
        rw [Nat.zero_add, hnone] at hsome
        cases hsome
    · rw [hre.size, splice_length (by rwa [contents_length]), contents_length, List.length_take_of_le (show k ≤ data.length from hkn)]
    · have hread := readsAs_contents (hre.live ▸ hre.blocks) hre.filled
      rwa [hre.contents] at hread

/-- A disk with one inode and one data block, which is free; the inode is an empty file. -/
def smallDisk : Fs :=
  .blank ⟨3, 1, 1, 0, 1⟩ ((Bytes.zero BSIZE).setByte 0 3) ⟨ROOTDEV, 0, 1, true, true, { Dinode.zero with type := T_FILE, nlink := 1 }⟩

theorem smallDisk_blocks (ip : InodeId) : smallDisk.Blocks (smallDisk.live ip) := by
  refine blank_blocks ⟨fun i hi => ?_, fun b hb => ?_, by decide⟩ (fun b hb => ?_) (fun _ => rfl) ip
  · change i < 1 at hi
    change i / 16 + 0 < 1
    omega
  · change b < 3 at hb
    change b / 8192 + 1 < 2
    omega
  · change b < 2 at hb
    obtain rfl | rfl : b = 0 ∨ b = 1 := by omega
    · decide
    · decide

/-- A byte is written to the empty file. -/
theorem file_refines_smallDisk : smallDisk.Blocks (smallDisk.live 0) ∧
    Ends (writei 0 (fun _ => some 7) 0 1) smallDisk fun r s' => ∃ k : ℕ, k ≤ 1 ∧ r = k ∧ ReadsAs 0 (splice [] 0 ([7].take k)) s' := by
  refine ⟨smallDisk_blocks 0, ?_⟩
  have h := file_refines (smallDisk_blocks 0) (by decide) (by decide) (fun o ho => absurd ho (Nat.not_lt_zero o))
    (show 0 < 4294967296 by decide) (show 1 < 4294967296 by decide)
  refine (h.2.2 (fun _ => some 7) [7] rfl ⟨rfl, trivial⟩ (Nat.zero_le _) (by decide)).mono fun r s' hr => ?_
  obtain ⟨k, hk, hr, -, -, -, hread⟩ := hr
  exact ⟨k, hk, hr, hread⟩

end Xv6
