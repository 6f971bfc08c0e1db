import Xv6.Bcache
import Xv6.Overlay

/-!
# The cache over the disk

What the log needs of the buffer cache : some blocks are pinned (`l`), and of these some have newer
contents in the cache than on the disk (`t`, a list of writes). `Bufs.Over` says that the pins are
exactly those, and that every valid buffer holds the contents of the disk under the writes of
`t`. The steps of bread and brelse keep it; log_write adds a pin and a write, bunpin takes the pin away,
and a write to the disk makes a block the same in both.
-/

set_option linter.unusedSectionVars false

namespace Xv6

namespace Bufs

variable {P : Type*} [DecidableEq P]

/-- The blocks of `l` are pinned, and the cache holds the disk under the writes of `t`. -/
structure Over (c : Bufs P) (disk : ℕ → Block) (pins : BufId → ℕ) (l : List ℕ)
    (t : List (ℕ × Block)) : Prop where
  inv : c.Inv pins
  pins : ∀ i, pins i = l.countP fun b => decide ((c.buf i).blockno = some b)
  cached : ∀ b ∈ l, ∃ i, (c.buf i).blockno = some b
  data : ∀ i b, (c.buf i).blockno = some b → (c.buf i).valid = true →
    (c.buf i).data = overlay disk t b
  present : ∀ b ∈ places t, b ∈ l ∧ ∃ i, (c.buf i).blockno = some b ∧ (c.buf i).valid = true

variable {c c' : Bufs P} {disk : ℕ → Block} {pins : BufId → ℕ} {l : List ℕ}
  {t : List (ℕ × Block)} {p : P} {i j : BufId} {b : ℕ} {d : Block}

theorem binit_over (disk : ℕ → Block) : (binit : Bufs P).Over disk (fun _ => 0) [] [] where
  inv := binit_inv
  pins _ := rfl
  cached _ h := by cases h
  data i b h := by cases h
  present _ h := by cases h

/-- The buffer of a pinned block is in use. -/
theorem Over.in_use (h : c.Over disk pins l t) (hb : b ∈ l) (hi : (c.buf i).blockno = some b) :
    0 < (c.buf i).refcnt := by
  have hpos : 0 < pins i := by
    rw [h.pins i]
    exact List.countP_pos_iff.mpr ⟨b, hb, by simp [hi]⟩
  have := h.inv.count i
  omega

/-- A change that keeps the blocks and the contents of the buffers. -/
theorem Over.of_same (h : c.Over disk pins l t) (hinv : c'.Inv pins)
    (hsame : ∀ j, Same (c.buf j) (c'.buf j)) : c'.Over disk pins l t where
  inv := hinv
  pins j := by
    rw [(hsame j).blockno]
    exact h.pins j
  cached b hb := by
    obtain ⟨j, hj⟩ := h.cached b hb
    exact ⟨j, (hsame j).blockno.trans hj⟩
  data j b hj hv := by
    rw [(hsame j).data]
    exact h.data j b ((hsame j).blockno.symm.trans hj) ((hsame j).valid.symm.trans hv)
  present b hb := by
    obtain ⟨hl, j, hj, hv⟩ := h.present b hb
    exact ⟨hl, j, (hsame j).blockno.trans hj, (hsame j).valid.trans hv⟩

theorem Over.got (h : c.Over disk pins l t) (hg : Got c p b i c') : c'.Over disk pins l t := by
  cases hg with
  | hit hb hc' =>
    refine h.of_same (Got.inv (.hit hb hc') h.inv) fun j => ?_
    subst hc'
    exact refcnt_same c i j _
  | miss hb hi hc' =>
    have hinv := Got.inv (.miss hb hi hc') h.inv
    have hne : ∀ j, j ≠ i → c'.buf j = c.buf j := fun j hj => by
      subst hc'
      exact set_of_ne hj _
    have hself : (c'.buf i).blockno = some b ∧ (c'.buf i).valid = false := by
      subst hc'
      exact ⟨congrArg Buf.blockno (set_self (c := c) i _), congrArg Buf.valid (set_self (c := c) i _)⟩
    -- the block was not cached, so it is not pinned, and the buffer taken is not one of the pinned
    have hbl : b ∉ l := fun hbl => by
      obtain ⟨j, hj⟩ := h.cached b hbl
      exact hb j hj
    have hused : ∀ {j b'}, b' ∈ l → (c.buf j).blockno = some b' → j ≠ i := by
      rintro j b' hl hj rfl
      have := h.in_use hl hj
      omega
    refine ⟨hinv, fun j => ?_, fun b' hb' => ?_, fun j b' hj hv => ?_, fun b' hb' => ?_⟩
    · by_cases hj : j = i
      · subst hj
        have hzero : pins j = 0 := by
          have := h.inv.count j
          omega
        rw [hzero, hself.1, eq_comm, List.countP_eq_zero]
        intro b' hb' heq
        simp only [Option.some.injEq, decide_eq_true_eq] at heq
        exact hbl (heq ▸ hb')
      · rw [hne j hj]
        exact h.pins j
    · obtain ⟨j, hj⟩ := h.cached b' hb'
      exact ⟨j, by rw [hne j (hused hb' hj), hj]⟩
    · have hji : j ≠ i := by
        rintro rfl
        rw [hself.2] at hv
        cases hv
      rw [hne j hji] at hj hv ⊢
      exact h.data j b' hj hv
    · obtain ⟨hl, j, hj, hv⟩ := h.present b' hb'
      exact ⟨hl, j, by rw [hne j (hused hl hj)]; exact ⟨hj, hv⟩⟩

theorem Over.acquire (h : c.Over disk pins l t) (ha : c.acquire disk p i = some c') :
    c'.Over disk pins l t := by
  obtain ⟨hblock, hvalid, -, hold, hnew⟩ := acquire_self ha
  have hne : ∀ j, j ≠ i → c'.buf j = c.buf j := fun j hj => acquire_of_ne ha hj
  have hblocks : ∀ j, (c'.buf j).blockno = (c.buf j).blockno := by
    intro j
    by_cases hj : j = i
    · rw [hj, hblock]
    · rw [hne j hj]
  refine ⟨h.inv.acquire ha, fun j => ?_, fun b hb => ?_, fun j b hj hv => ?_, fun b hb => ?_⟩
  · rw [hblocks]
    exact h.pins j
  · obtain ⟨j, hj⟩ := h.cached b hb
    exact ⟨j, (hblocks j).trans hj⟩
  · rw [hblocks] at hj
    by_cases hji : j = i
    · subst hji
      cases hv' : (c.buf j).valid with
      | true => rw [hold hv', h.data j b hj hv']
      | false =>
        -- a block with newer contents has a valid buffer, which would be this one
        rw [hnew hv' b hj, overlay_of_not_mem]
        intro hb
        obtain ⟨-, k, hk, hkv⟩ := h.present b hb
        obtain rfl := h.inv.inj k j b hk hj
        simp [hv'] at hkv
    · rw [hne j hji] at hv ⊢
      exact h.data j b hj hv
  · obtain ⟨hl, j, hj, hv⟩ := h.present b hb
    refine ⟨hl, j, (hblocks j).trans hj, ?_⟩
    by_cases hji : j = i
    · rw [hji, hvalid]
    · rwa [hne j hji]

theorem Over.releasesleep (h : c.Over disk pins l t) (hmem : ⟨p, i, .holds⟩ ∈ c.refs) :
    (c.releasesleep p i).Over disk pins l t :=
  h.of_same (h.inv.releasesleep hmem) (releasesleep_same c p i)

theorem Over.put (h : c.Over disk pins l t) (hmem : ⟨p, i, .released⟩ ∈ c.refs) :
    (c.put p i).Over disk pins l t :=
  h.of_same (h.inv.put hmem) (put_same c p i)

/-! ## The writes -/

theorem setData_of_ne (h : j ≠ i) : (c.setData i d).buf j = c.buf j :=
  set_of_ne h _

theorem setData_self : ((c.setData i d).buf i).blockno = (c.buf i).blockno ∧
    ((c.setData i d).buf i).valid = (c.buf i).valid ∧ ((c.setData i d).buf i).data = d := by
  simp [setData]

theorem setData_blockno (c : Bufs P) (i j : BufId) (d : Block) :
    ((c.setData i d).buf j).blockno = (c.buf j).blockno ∧
    ((c.setData i d).buf j).valid = (c.buf j).valid := by
  by_cases hj : j = i
  · subst hj
    exact ⟨setData_self.1, setData_self.2.1⟩
  · rw [setData_of_ne hj]
    exact ⟨rfl, rfl⟩

/-- New contents in the buffer of one block, and as many changes of the disk and of the newer
writes. -/
theorem Over.set_data {disk' : ℕ → Block} {t' : List (ℕ × Block)} (h : c.Over disk pins l t)
    (hb : (c.buf i).blockno = some b) (hd : overlay disk' t' b = d)
    (hothers : ∀ b', b' ≠ b → overlay disk' t' b' = overlay disk t b')
    (hplaces : ∀ b' ∈ places t', b' ∈ places t ∨ b' = b ∧ b ∈ l ∧ (c.buf i).valid = true) :
    (c.setData i d).Over disk' pins l t' where
  inv := h.inv.setData i d
  pins j := by
    rw [(setData_blockno c i j d).1]
    exact h.pins j
  cached b' hb' := by
    obtain ⟨j, hj⟩ := h.cached b' hb'
    exact ⟨j, (setData_blockno c i j d).1.trans hj⟩
  data j b' hj hv := by
    rw [(setData_blockno c i j d).1] at hj
    rw [(setData_blockno c i j d).2] at hv
    by_cases hji : j = i
    · subst hji
      obtain rfl := Option.some.inj (hj.symm.trans hb)
      rw [setData_self.2.2, hd]
    · have hne : b' ≠ b := by
        rintro rfl
        exact hji (h.inv.inj j i b' hj hb)
      rw [setData_of_ne hji, hothers b' hne]
      exact h.data j b' hj hv
  present b' hb' := by
    obtain hold | ⟨rfl, hl, hv⟩ := hplaces b' hb'
    · obtain ⟨hl, j, hj, hv⟩ := h.present b' hold
      exact ⟨hl, j, (setData_blockno c i j d).1.trans hj, (setData_blockno c i j d).2.trans hv⟩
    · exact ⟨hl, i, (setData_blockno c i i d).1.trans hb, (setData_blockno c i i d).2.trans hv⟩

/-- A write of a block that has no newer contents in the cache. -/
theorem Over.write (h : c.Over disk pins l t) (hb : (c.buf i).blockno = some b)
    (hnew : b ∉ places t) : (c.setData i d).Over (Function.update disk b d) pins l t := by
  refine h.set_data hb ?_ (fun b' hb' => ?_) fun b' => Or.inl
  · rw [overlay_of_not_mem hnew, Function.update_self]
  · exact overlay_congr fun _ => Function.update_of_ne hb' _ _

/-- The newest contents of a block are written home. -/
theorem Over.install (h : c.Over disk pins l ((b, d) :: t)) (hb : (c.buf i).blockno = some b)
    (hnew : b ∉ places t) : (c.setData i d).Over (Function.update disk b d) pins l t := by
  refine h.set_data hb ?_ (fun b' hb' => rfl) fun b' hb' => Or.inl (List.mem_cons_of_mem _ hb')
  rw [overlay_of_not_mem hnew, Function.update_self]

/-- log_write of a block that is logged. -/
theorem Over.absorb (h : c.Over disk pins l t) (hb : (c.buf i).blockno = some b)
    (hv : (c.buf i).valid = true) (hl : b ∈ l) : (c.setData i d).Over disk pins l (record t b d) := by
  refine h.set_data hb ?_ (fun b' hb' => ?_) fun b' hb' => ?_
  · rw [overlay_record, Function.update_self]
  · rw [overlay_record, Function.update_of_ne hb']
  · rw [places_record] at hb'
    split_ifs at hb' with hmem
    · exact Or.inl hb'
    · obtain hb' | hb' := List.mem_append.mp hb'
      · exact Or.inl hb'
      · exact Or.inr ⟨List.mem_singleton.mp hb', hl, hv⟩

/-- One pin more. -/
theorem Over.bpin (h : c.Over disk pins l t) (hb : (c.buf i).blockno = some b) :
    (c.bpin i).Over disk (Function.update pins i (pins i + 1)) (l ++ [b]) t where
  inv := h.inv.bpin (by simp [hb])
  pins j := by
    rw [(bpin_same c i j).blockno, List.countP_append, ← h.pins j]
    by_cases hj : j = i
    · subst hj
      simp [hb]
    · have hne : (c.buf j).blockno ≠ some b := fun heq => hj (h.inv.inj j i b heq hb)
      simp [hj, hne]
  cached b' hb' := by
    obtain hb' | hb' := List.mem_append.mp hb'
    · obtain ⟨j, hj⟩ := h.cached b' hb'
      exact ⟨j, (bpin_same c i j).blockno.trans hj⟩
    · obtain rfl := List.mem_singleton.mp hb'
      exact ⟨i, (bpin_same c i i).blockno.trans hb⟩
  data j b' hj hv := by
    rw [(bpin_same c i j).data]
    exact h.data j b' ((bpin_same c i j).blockno.symm.trans hj) ((bpin_same c i j).valid.symm.trans hv)
  present b' hb' := by
    obtain ⟨hl, j, hj, hv⟩ := h.present b' hb'
    exact ⟨List.mem_append_left _ hl, j, (bpin_same c i j).blockno.trans hj,
      (bpin_same c i j).valid.trans hv⟩

/-- One pin less, of a block that is the same in the cache and on the disk. -/
theorem Over.bunpin (h : c.Over disk pins (b :: l) t) (hb : (c.buf i).blockno = some b)
    (hnew : b ∉ places t) :
    (c.bunpin i).Over disk (Function.update pins i (pins i - 1)) l t where
  inv := by
    refine h.inv.bunpin ?_
    rw [h.pins i]
    exact List.countP_pos_iff.mpr ⟨b, List.mem_cons_self, by simp [hb]⟩
  pins j := by
    have hj' := h.pins j
    rw [(bunpin_same c i j).blockno]
    by_cases hj : j = i
    · subst hj
      rw [Function.update_self, hj']
      simp [hb]
    · have hne : (c.buf j).blockno ≠ some b := fun heq => hj (h.inv.inj j i b heq hb)
      rw [Function.update_of_ne hj, hj']
      simp [hne]
  cached b' hb' := by
    obtain ⟨j, hj⟩ := h.cached b' (List.mem_cons_of_mem _ hb')
    exact ⟨j, (bunpin_same c i j).blockno.trans hj⟩
  data j b' hj hv := by
    rw [(bunpin_same c i j).data]
    exact h.data j b' ((bunpin_same c i j).blockno.symm.trans hj)
      ((bunpin_same c i j).valid.symm.trans hv)
  present b' hb' := by
    obtain ⟨hl, j, hj, hv⟩ := h.present b' hb'
    have hne : b' ≠ b := fun heq => hnew (heq ▸ hb')
    exact ⟨(List.mem_cons.mp hl).resolve_left hne, j, (bunpin_same c i j).blockno.trans hj,
      (bunpin_same c i j).valid.trans hv⟩

end Bufs

end Xv6
