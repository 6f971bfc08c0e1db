import Xv6.PageMap
import Xv6.UserCopy

/-!
# Copies to user memory

`copyout` goes page by page, like `copyin`, and stores only in pages that the user may write. What it has done after any
number of pages is `Phys.CopiedOut` : the bytes of a range of addresses are those of the source, no other byte that the
kernel sees of user memory has changed, and no physical page has been written but pages of the user and pages that
came from the free list. Ranges that reach beyond `MAXVA` or wrap around stop there (`copies_confined`).
-/

namespace Xv6

namespace Phys

variable {m m' m₁ : Phys} {p : UserProc} {q v : ℕ}

/-- The user may write page `v`, once it has been mapped. -/
def Writable (m : Phys) (p : UserProc) (v : ℕ) : Prop :=
  v < 67108864 ∧ match m.entry p.pagetable v with
    | none => v * PGSIZE < p.sz
    | some e => e.2 &&& PTE_U ≠ 0 ∧ e.2 &&& PTE_W ≠ 0

/-- The addresses from `lo` up to `hi` have got the bytes `b`. -/
structure CopiedOut (p : UserProc) (lo hi : ℕ) (b : ℕ → UInt8) (m m' : Phys) : Prop where
  user : m'.UserSpace p
  total : m'.nodes 2 p.pagetable + m'.leaves p.pagetable + m'.freelist =
    m.nodes 2 p.pagetable + m.leaves p.pagetable + m.freelist
  old : ∀ v, v < 67108864 → m.entry p.pagetable v ≠ none → m'.entry p.pagetable v = m.entry p.pagetable v
  new : ∀ v, v < 67108864 → m.entry p.pagetable v = none → m'.entry p.pagetable v = none ∨ v * PGSIZE < p.sz
  bytes : ∀ a, peek (m'.seen p) a = if lo ≤ a ∧ a < hi then some (b a) else peek (m.seen p) a
  confined : ∀ q, m'.page q ≠ m.page q → q ∈ m.nodes 2 p.pagetable + m.freelist ∨
    ∃ v f, v < 67108864 ∧ lo < (v + 1) * PGSIZE ∧ v * PGSIZE < hi ∧ m'.entry p.pagetable v = some (q, f) ∧
      f &&& PTE_U ≠ 0 ∧ f &&& PTE_W ≠ 0

namespace CopiedOut

variable {lo mid hi : ℕ} {b : ℕ → UInt8}

/-- Finding pages copies nothing. -/
theorem of_faulted (hu : m.UserSpace p) (h : Faulted p.sz p.pagetable m m') (lo : ℕ) (b : ℕ → UInt8) :
    CopiedOut p lo lo b m m' where
  user := hu.faulted h
  total := h.total
  old := h.old
  new v hv hnone := (h.new v hv hnone).imp_right fun h => h.1
  bytes a := by rw [if_neg (by omega), h.seen hu]
  confined q hq := Or.inl (by
    by_contra hmem
    exact hq (h.frame q hmem))

theorem trans (h₁ : CopiedOut p lo mid b m m₁) (h₂ : CopiedOut p mid hi b m₁ m') (hlo : lo ≤ mid)
    (hhi : mid ≤ hi) : CopiedOut p lo hi b m m' where
  user := h₂.user
  total := h₂.total.trans h₁.total
  old v hv hne := by
    have hv₁ := h₁.old v hv hne
    rw [h₂.old v hv (hv₁.trans_ne hne), hv₁]
  new v hv hnone := by
    obtain hnone₁ | hlt := h₁.new v hv hnone
    · exact h₂.new v hv hnone₁
    · exact Or.inr hlt
  bytes a := by
    rw [h₂.bytes, h₁.bytes]
    by_cases h : mid ≤ a ∧ a < hi
    · rw [if_pos h, if_pos (by omega)]
    · rw [if_neg h]
      exact if_congr (by omega) rfl rfl
  confined q hq := by
    by_cases hq₁ : m₁.page q = m.page q
    · rw [← hq₁] at hq
      obtain hmem | ⟨v, f, hv, hlt, hgt, hentry, hf⟩ := h₂.confined q hq
      · -- a page of the table or the free list of `m₁` was no page of user memory before
        have htotal : q ∈ m.nodes 2 p.pagetable + m.leaves p.pagetable + m.freelist := by
          rw [← h₁.total]
          exact Multiset.mem_of_le (Space.tree_le m₁ _) hmem
        rw [add_right_comm, Multiset.mem_add] at htotal
        refine Or.inl (htotal.resolve_right fun hleaf => ?_)
        obtain ⟨v, hv, f, hf⟩ := mem_leaves.mp hleaf
        refine h₁.user.space.leaf_not_mem (mem_leaves.mpr ⟨v, hv, f, ?_⟩) hmem
        rw [h₁.old v (lt_of_lt_USERPAGES hv) (by rw [hf]; exact Option.some_ne_none _), hf]
      · exact Or.inr ⟨v, f, hv, by omega, hgt, hentry, hf⟩
    · obtain hmem | ⟨v, f, hv, hlt, hgt, hentry, hf⟩ := h₁.confined q hq₁
      · exact Or.inl hmem
      · refine Or.inr ⟨v, f, hv, hlt, by omega, ?_, hf⟩
        rw [h₂.old v hv (by rw [hentry]; exact Option.some_ne_none _), hentry]

/-- What can be written afterwards could be written before. -/
theorem writable (h : CopiedOut p lo hi b m m') (hw : m'.Writable p v) : m.Writable p v := by
  obtain ⟨hv, hw⟩ := hw
  refine ⟨hv, ?_⟩
  cases hentry : m.entry p.pagetable v with
  | none =>
    obtain hnone | hlt := h.new v hv hentry
    · rwa [hnone] at hw
    · exact hlt
  | some e =>
    rw [h.old v hv (by rw [hentry]; exact Option.some_ne_none _), hentry] at hw
    exact hw

/-- Bytes are stored in a page that the user may write. -/
theorem of_setPage (hu : m.UserSpace p) (hq : m.userPage p.pagetable v = some q) {f off : ℕ} {l : List UInt8}
    (hentry : m.entry p.pagetable v = some (q, f)) (hW : f &&& PTE_W ≠ 0) (hpos : 0 < l.length)
    (hoff : off + l.length ≤ 4096)
    (hb : ∀ i, (hi : i < l.length) → b (v * PGSIZE + off + i) = l[i]) :
    CopiedOut p (v * PGSIZE + off) (v * PGSIZE + off + l.length) b m (m.setPage q ((m.page q).setBytes off l)) := by
  obtain ⟨hv, f', hf', hU⟩ := userPage_eq_some.mp hq
  obtain rfl : f = f' := by
    rw [hentry] at hf'
    exact congrArg Prod.snd (Option.some.inj hf')
  have hleaf := hu.mem_leaves hq
  have hnode : q ∉ m.nodes 2 p.pagetable := fun hmem =>
    hu.space.leaf_not_mem hleaf (Multiset.mem_add.mpr (Or.inl hmem))
  set m₁ := m.setPage q ((m.page q).setBytes off l) with hm₁
  have hsame : ∀ u ∈ m.nodes 2 p.pagetable, m₁.page u = m.page u := fun u hu =>
    setPage_page_of_ne _ fun heq => hnode (heq ▸ hu)
  have hentries : ∀ w, m₁.entry p.pagetable w = m.entry p.pagetable w := entry_congr hsame
  have hleaves : m₁.leaves p.pagetable = m.leaves p.pagetable := leaves_congr fun w _ => hentries w
  have htotal : m₁.nodes 2 p.pagetable + m₁.leaves p.pagetable + m₁.freelist =
      m.nodes 2 p.pagetable + m.leaves p.pagetable + m.freelist := by
    rw [nodes_congr hsame, hleaves]
    rfl
  have huser : ∀ w, m₁.userPage p.pagetable w = m.userPage p.pagetable w := fun w => by
    rw [userPage, userPage, hentries]
  have hseen : m₁.seen p v = some ((m.page q).setBytes off l) := by
    rw [seen_of_userPage ((huser v).trans hq), hm₁, setPage_page_self]
  have hother : ∀ w, w ≠ v → m₁.seen p w = m.seen p w := fun w hw => by
    cases hw' : m.userPage p.pagetable w with
    | none => rw [seen_of_none hw', seen_of_none ((huser w).trans hw'), hentries]
    | some q' =>
      have hne : q' ≠ q := by
        rintro rfl
        exact hw (hu.userPage_inj hw' hq)
      rw [seen_of_userPage hw', seen_of_userPage ((huser w).trans hw'), hm₁, setPage_page_of_ne _ hne]
  refine ⟨⟨⟨?_, ?_, hu.space.plain.congr hsame⟩, hu.sz_le, fun w hlo hhi e he => ?_⟩, htotal, fun w _ _ => hentries w,
    fun w _ hnone => Or.inl ((hentries w).trans hnone), fun a => ?_, fun q' hq' => Or.inr ?_⟩
  · rw [htotal]
    exact hu.space.nodup
  · rw [htotal]
    exact hu.space.range
  · rw [hentries] at he
    exact hu.high w hlo hhi e he
  · change peek (m₁.seen p) a = if v * 4096 + off ≤ a ∧ a < v * 4096 + off + l.length then some (b a) else peek (m.seen p) a
    by_cases hav : a / 4096 = v
    · have hpage : ∀ {S : ℕ → Option (Bytes PGSIZE)} {B : Bytes PGSIZE}, S v = some B → peek S a = some (B.byte (a % 4096)) := by
        intro S B hS
        have h := peek_page hS (Nat.mod_lt a (show 0 < 4096 by decide))
        change peek S (v * 4096 + a % 4096) = _ at h
        rwa [show v * 4096 + a % 4096 = a by omega] at h
      rw [hpage hseen, hpage (seen_of_userPage hq), Bytes.byte_setBytes _ (by exact hoff)]
      by_cases hin : off ≤ a % 4096 ∧ a % 4096 < off + l.length
      · have hi : a % 4096 - off < l.length := by omega
        have hba := hb _ hi
        change b (v * 4096 + off + (a % 4096 - off)) = _ at hba
        rw [show v * 4096 + off + (a % 4096 - off) = a by omega] at hba
        rw [if_pos hin, if_pos (by omega), hba, List.getElem_eq_getD 0]
      · rw [if_neg hin, if_neg (by omega)]
    · rw [if_neg (by omega), peek, peek, hother _ hav]
  · obtain rfl : q' = q := by
      by_contra hne
      exact hq' (setPage_page_of_ne _ hne)
    refine ⟨v, f, hv, ?_, ?_, (hentries v).trans hentry, hU, hW⟩
    · change v * 4096 + off < (v + 1) * 4096
      omega
    · omega

end CopiedOut

end Phys

open Phys

variable {m : Phys} {p : UserProc}

theorem flags_and_PTE_W (x : ℕ) : PTE_FLAGS x &&& PTE_W = x &&& PTE_W := by
  rw [PTE_FLAGS, Nat.and_assoc]
  rfl

theorem copyoutFrom_nil (n dstva : ℕ) : copyoutFrom p p.pagetable n dstva [] = pure true := by
  cases n <;> rfl

theorem copyoutFrom_ends {b : ℕ → UInt8} (n : ℕ) : ∀ {m : Phys} (_ : m.UserSpace p) (dstva : ℕ) (src : List UInt8),
    src.length ≤ n → (∀ i, (hi : i < src.length) → b (dstva + i) = src[i]) →
    Ends (copyoutFrom p p.pagetable n dstva src) m fun ok m' => ∃ k, k ≤ src.length ∧
      CopiedOut p dstva (dstva + k) b m m' ∧ (ok = true → k = src.length ∧
        ∀ a, dstva ≤ a → a < dstva + src.length → m.Writable p (a / PGSIZE)) := by
  have hdone : ∀ {m : Phys} (_ : m.UserSpace p) {dstva : ℕ}, ∃ k, k ≤ ([] : List UInt8).length ∧
      CopiedOut p dstva (dstva + k) b m m ∧ (true = true → k = ([] : List UInt8).length ∧
        ∀ a, dstva ≤ a → a < dstva + ([] : List UInt8).length → m.Writable p (a / PGSIZE)) := fun hu _ =>
    ⟨0, le_rfl, .of_faulted hu (.refl hu.space) _ _, fun _ =>
      ⟨rfl, fun a hlo hhi => absurd hhi (Nat.not_lt.mpr hlo)⟩⟩
  induction n with
  | zero =>
    intro m hu dstva src hlen hb
    obtain rfl := List.eq_nil_of_length_eq_zero (Nat.le_zero.mp hlen)
    exact .pure (hdone hu)
  | succ n ih =>
    intro m hu dstva src hlen hb
    rw [copyoutFrom]
    by_cases hnil : src = []
    · subst hnil
      rw [if_pos rfl]
      exact .pure (hdone hu)
    rw [if_neg hnil]
    have h0 : src.length ≠ 0 := fun h => hnil (List.eq_nil_of_length_eq_zero h)
    obtain ⟨hadd, hoff, hpos, hlen', hnext⟩ := first_page dstva h0
    dsimp only at hadd hoff hpos hlen' hnext ⊢
    -- nothing has been copied when the page cannot be written
    have hstop : ∀ m₁, Faulted p.sz p.pagetable m m₁ → ∃ k, k ≤ src.length ∧
        CopiedOut p dstva (dstva + k) b m m₁ ∧ (false = true → k = src.length ∧
          ∀ a, dstva ≤ a → a < dstva + src.length → m.Writable p (a / PGSIZE)) := fun m₁ hf =>
      ⟨0, Nat.zero_le _, .of_faulted hu hf _ _, fun h => absurd h Bool.false_ne_true⟩
    by_cases hmax : PGROUNDDOWN dstva ≥ MAXVA
    · rw [if_pos hmax]
      exact .pure (hstop m (.refl hu.space))
    rw [if_neg hmax]
    have hv : dstva / PGSIZE < 67108864 := by
      change ¬ dstva / 4096 * 4096 ≥ 274877906944 at hmax
      change dstva / 4096 < 67108864
      omega
    refine .bind (useraddr_ends hu (dstva / PGSIZE)) fun r m₁ h => ?_
    obtain ⟨hf, hr⟩ := h
    cases r with
    | none => exact .pure (hstop m₁ hf)
    | some q =>
      have hu₁ := hu.faulted hf
      obtain ⟨-, f, hentry, hU⟩ := userPage_eq_some.mp hr
      refine .bind (walk_entry hv p.pagetable m₁) fun r m₂ h => ?_
      obtain ⟨rfl, h⟩ := h
      cases r with
      | none =>
        rw [hentry] at h
        cases h
      | some s =>
        obtain ⟨u, -, rfl, hdecode⟩ := h
        rw [hentry] at hdecode
        refine .get_bind ?_
        have hflags : f &&& PTE_W = m₂.pte u (PX 0 (dstva / PGSIZE * PGSIZE)) &&& PTE_W := by
          rw [← flags_and_PTE_W (m₂.pte u _)]
          rw [decode] at hdecode
          split_ifs at hdecode
          cases hdecode
          rfl
        split_ifs with hW
        · exact .pure (hstop m₂ hf)
        rw [← hflags] at hW
        refine .modify_bind ?_
        set off := dstva - PGROUNDDOWN dstva
        set k := min (PGSIZE - off) src.length
        have htake : (src.take k).length = k := by
          rw [List.length_take]
          omega
        have hcopied := CopiedOut.of_setPage (b := b) hu₁ hr (l := src.take k) hentry hW (by omega)
          (htake.symm ▸ hoff) fun i hi => by
            rw [hadd, hb i (by omega), List.getElem_take]
        rw [hadd, htake] at hcopied
        have hcopied₁ := (CopiedOut.of_faulted hu hf dstva b).trans hcopied le_rfl (Nat.le_add_right _ _)
        have hwritable : ∀ a, dstva ≤ a → a < dstva + k → m.Writable p (a / PGSIZE) := fun a hlo hhi => by
          have hpage : a / PGSIZE = dstva / PGSIZE := by
            change dstva / 4096 * 4096 + _ = _ at hadd
            change a / 4096 = dstva / 4096
            omega
          rw [hpage]
          refine (CopiedOut.of_faulted hu hf dstva b).writable ⟨hv, ?_⟩
          rw [hentry]
          exact ⟨hU, hW⟩
        by_cases hz : src.length - k = 0
        · rw [List.drop_eq_nil_of_le (by omega), copyoutFrom_nil]
          exact .pure ⟨k, by omega, hcopied₁, fun _ => ⟨by omega, fun a hlo hhi => hwritable a hlo (by omega)⟩⟩
        · rw [hnext.resolve_left hz]
          refine (ih hcopied.user (dstva + k) (src.drop k) ?_ fun i hi => ?_).mono fun ok m' h => ?_
          · rw [List.length_drop]
            omega
          · rw [List.length_drop] at hi
            rw [Nat.add_assoc, hb (k + i) (by omega), List.getElem_drop]
          · obtain ⟨k', hle, hcopied', hok⟩ := h
            rw [List.length_drop] at hle hok
            rw [Nat.add_assoc] at hcopied'
            refine ⟨k + k', by omega, hcopied₁.trans hcopied' (Nat.le_add_right _ _) (by omega), fun h => ?_⟩
            obtain ⟨hk', hrest⟩ := hok h
            refine ⟨by omega, fun a hlo hhi => ?_⟩
            by_cases ha : a < dstva + k
            · exact hwritable a hlo ha
            · exact hcopied₁.writable (hrest a (by omega) (by omega))

/-- `copyout` stores in pages that the user may write, and in no others. -/
theorem copyout_ends (hu : m.UserSpace p) (dstva : ℕ) (src : List UInt8) :
    Ends (copyout p p.pagetable dstva src) m fun ok m' => ∃ k, k ≤ src.length ∧
      CopiedOut p dstva (dstva + k) (fun a => src.getD (a - dstva) 0) m m' ∧ (ok = true → k = src.length ∧
        ∀ a, dstva ≤ a → a < dstva + src.length → m.Writable p (a / PGSIZE)) :=
  copyoutFrom_ends src.length hu dstva src le_rfl fun i hi => by
    rw [Nat.add_sub_cancel_left, List.getElem_eq_getD 0]

/-! ## The copies -/

/-- The copies do not panic, touch no page that is not the user's, and succeed only when all bytes have been moved. -/
theorem copies_confined (hu : m.UserSpace p) (va len : ℕ) (src : List UInt8) :
    Ends (copyout p p.pagetable va src) m (fun ok m' => ∃ k, k ≤ src.length ∧
      CopiedOut p va (va + k) (fun a => src.getD (a - va) 0) m m' ∧ (ok = true → k = src.length ∧
        ∀ a, va ≤ a → a < va + src.length → m.Writable p (a / PGSIZE))) ∧
    Ends (copyin p p.pagetable va len) m (fun r m' => Faulted p.sz p.pagetable m m' ∧ m'.seen p = m.seen p ∧
      Reads (peek (m'.present p)) va r.2 ∧ r.2.length ≤ len ∧ (r.1 = true → r.2.length = len)) := by
  refine ⟨copyout_ends hu va src, (copyin_ends hu va len).mono fun r m' h => ?_⟩
  obtain ⟨hf, ⟨hreads, hle⟩, hok, -⟩ := h
  exact ⟨hf, hf.seen hu, hreads, hle, hok⟩

/-- Two bytes are copied to a promised page, and the third would be beyond the last one. -/
theorem copies_confined_promised : emptySpace.UserSpace ⟨1, 4096⟩ ∧
    (Ends (copyout ⟨1, 4096⟩ 1 4094 [7, 8, 9]) emptySpace (fun ok m' => ∃ k, k ≤ 3 ∧
      CopiedOut ⟨1, 4096⟩ 4094 (4094 + k) (fun a => [7, 8, 9].getD (a - 4094) 0) emptySpace m' ∧ (ok = true → k = 3 ∧
        ∀ a, 4094 ≤ a → a < 4094 + 3 → emptySpace.Writable ⟨1, 4096⟩ (a / PGSIZE))) ∧
    Ends (copyin ⟨1, 4096⟩ 1 4094 3) emptySpace (fun r m' => Faulted 4096 1 emptySpace m' ∧
      m'.seen ⟨1, 4096⟩ = emptySpace.seen ⟨1, 4096⟩ ∧ Reads (peek (m'.present ⟨1, 4096⟩)) 4094 r.2 ∧ r.2.length ≤ 3 ∧
        (r.1 = true → r.2.length = 3))) :=
  ⟨emptySpace_userSpace, copies_confined emptySpace_userSpace 4094 3 [7, 8, 9]⟩

end Xv6
