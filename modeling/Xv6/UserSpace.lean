import Xv6.PageTable

/-!
# Address spaces

The address space of a process is its page table and the pages that it maps below the trapframe (`Phys.leaves`). No
page of it is free or occurs twice (`Phys.Space`); the trapframe and the trampoline above belong to others.

A page below the size of the process that has no entry is one that `sbrk` has promised. `vmfault` gives it a page
of zeros and leaves everything else as it is (`Phys.Faulted`, `vmfault_ends`), so that what the kernel sees of
user memory (`Phys.seen`), with promised pages seen as zeros, is the same before and after
(`Phys.Faulted.seen`).
-/

namespace Xv6

/-- `TRAPFRAME / PGSIZE`. -/
abbrev USERPAGES : ℕ := 67108862

theorem page_lt_USERPAGES {v sz : ℕ} (hsz : sz ≤ TRAPFRAME) (h : v * PGSIZE < sz) : v < USERPAGES := by
  change v * 4096 < sz at h
  change sz ≤ 274877898752 at hsz
  change v < 67108862
  omega

theorem lt_of_lt_USERPAGES {v : ℕ} (h : v < USERPAGES) : v < 67108864 :=
  Nat.lt_of_lt_of_le h (by decide)

namespace Phys

variable {m m' m₁ : Phys} {t v w q sz : ℕ}

/-! ## The pages of user memory -/

/-- The pages that `t` maps below the trapframe. -/
def leaves (m : Phys) (t : ℕ) : Multiset ℕ :=
  ∑ v ∈ Finset.range USERPAGES, (m.entry t v).elim 0 fun e => {e.1}

theorem mem_leaves : q ∈ m.leaves t ↔ ∃ v, v < USERPAGES ∧ ∃ f, m.entry t v = some (q, f) := by
  rw [leaves, Multiset.mem_sum]
  refine exists_congr fun v => and_congr Finset.mem_range ?_
  cases m.entry t v with
  | none => simp
  | some e =>
    rw [Option.elim_some, Multiset.mem_singleton]
    constructor
    · rintro rfl
      exact ⟨e.2, rfl⟩
    · rintro ⟨f, hf⟩
      rw [Option.some.inj hf]

theorem leaves_congr (h : ∀ v, v < USERPAGES → m'.entry t v = m.entry t v) : m'.leaves t = m.leaves t :=
  Finset.sum_congr rfl fun v hv => by rw [h v (Finset.mem_range.mp hv)]

/-- The entry of one page changes. -/
theorem leaves_update (hv : v < USERPAGES) (h : ∀ w, w ≠ v → w < USERPAGES → m'.entry t w = m.entry t w) :
    m'.leaves t + (m.entry t v).elim 0 (fun e => {e.1}) = m.leaves t + (m'.entry t v).elim 0 (fun e => {e.1}) := by
  have hsplit : ∀ f : ℕ → Multiset ℕ, ∑ w ∈ Finset.range USERPAGES, f w =
      f v + ∑ w ∈ (Finset.range USERPAGES).erase v, f w := fun f =>
    (Finset.add_sum_erase _ f (Finset.mem_range.mpr hv)).symm
  have hrest : ∑ w ∈ (Finset.range USERPAGES).erase v, (m'.entry t w).elim 0 (fun e => ({e.1} : Multiset ℕ)) =
      ∑ w ∈ (Finset.range USERPAGES).erase v, (m.entry t w).elim 0 (fun e => {e.1}) := by
    refine Finset.sum_congr rfl fun w hw => ?_
    rw [h w (Finset.ne_of_mem_erase hw) (Finset.mem_range.mp (Finset.mem_of_mem_erase hw))]
  rw [leaves, leaves, hsplit, hsplit fun w => (m.entry t w).elim 0 fun e => {e.1}, hrest]
  abel

theorem pair_le_leaves (hv : v < USERPAGES) (hw : w < USERPAGES) {f g : ℕ} (hne : v ≠ w)
    (hvq : m.entry t v = some (q, f)) (hwq : m.entry t w = some (q, g)) : ({q} : Multiset ℕ) + {q} ≤ m.leaves t := by
  have hsub := Finset.sum_le_sum_of_subset (f := fun v => (m.entry t v).elim 0 fun e => ({e.1} : Multiset ℕ))
    (show {v, w} ⊆ Finset.range USERPAGES by
      intro x hx
      obtain rfl | rfl := Finset.mem_insert.mp hx |>.imp_right Finset.mem_singleton.mp
      · exact Finset.mem_range.mpr hv
      · exact Finset.mem_range.mpr hw)
  rwa [Finset.sum_pair hne, hvq, hwq] at hsub

attribute [irreducible] leaves

/-- When no page of user memory occurs twice, different entries lead to different pages. -/
theorem leaf_inj (hnd : (m.leaves t).Nodup) (hv : v < USERPAGES) (hw : w < USERPAGES) {f g : ℕ}
    (hvq : m.entry t v = some (q, f)) (hwq : m.entry t w = some (q, g)) : v = w := by
  by_contra hne
  have hnd := Multiset.nodup_of_le (pair_le_leaves hv hw hne hvq hwq) hnd
  exact Multiset.disjoint_left.mp (Multiset.nodup_add.mp hnd).2.2 (Multiset.mem_singleton_self q)
    (Multiset.mem_singleton_self q)

/-- No page of the address space `t` is free or occurs twice, and its pages are ones that `kfree` takes. -/
structure Space (m : Phys) (t : ℕ) : Prop where
  nodup : (m.nodes 2 t + m.leaves t + m.freelist).Nodup
  range : ∀ p ∈ m.nodes 2 t + m.leaves t + m.freelist, m.layout.endPage ≤ p ∧ p < PHYSTOP / PGSIZE
  plain : m.Plain 2 t

namespace Space

theorem tree_le (m : Phys) (t : ℕ) : m.nodes 2 t + m.freelist ≤ m.nodes 2 t + m.leaves t + m.freelist :=
  add_le_add_left (Multiset.le_add_right _ _) _

theorem tree (h : m.Space t) : m.Tree 2 t where
  nodup := Multiset.nodup_of_le (tree_le m t) h.nodup
  range p hp := h.range p (Multiset.mem_of_le (tree_le m t) hp)
  plain := h.plain

/-- A page of user memory is no page of the page table, and not free. -/
theorem leaf_not_mem (h : m.Space t) (hq : q ∈ m.leaves t) : q ∉ m.nodes 2 t + m.freelist := by
  have hnd : (m.leaves t + (m.nodes 2 t + m.freelist)).Nodup := by
    have hnd := h.nodup
    rwa [add_right_comm, add_comm] at hnd
  exact Multiset.disjoint_left.mp (Multiset.nodup_add.mp hnd).2.2 hq

end Space

/-! ## Taking a page from the free list -/

/-- The page `q` has been taken from the free list, and may have been written. -/
structure Taken (q : ℕ) (m m' : Phys) : Prop where
  freelist : m.freelist = q :: m'.freelist
  frame : ∀ u, u ≠ q → m'.page u = m.page u
  layout : m'.layout = m.layout
  refused : m'.refused = m.refused

theorem Taken.setPage (h : Taken q m m') (b : Bytes PGSIZE) : Taken q m (m'.setPage q b) :=
  ⟨h.freelist, fun u hu => (setPage_page_of_ne b hu).trans (h.frame u hu), h.layout, h.refused⟩

section Taken

variable (h : Taken q m m') (hq : q ∉ m.nodes 2 t)
include h hq

theorem Taken.same : ∀ u ∈ m.nodes 2 t, m'.page u = m.page u :=
  fun u hu => h.frame u fun heq => hq (heq ▸ hu)

theorem Taken.nodes : m'.nodes 2 t = m.nodes 2 t :=
  nodes_congr (h.same hq)

theorem Taken.entry (v : ℕ) : m'.entry t v = m.entry t v :=
  entry_congr (h.same hq) v

theorem Taken.leaves : m'.leaves t = m.leaves t :=
  leaves_congr fun v _ => h.entry hq v

theorem Taken.total : m.nodes 2 t + m.leaves t + m.freelist =
    q ::ₘ (m'.nodes 2 t + m'.leaves t + m'.freelist) := by
  rw [h.nodes hq, h.leaves hq, h.freelist, ← Multiset.cons_coe, Multiset.add_cons]

end Taken

theorem Tree.not_mem_nodes_of_taken (ht : m.Tree 2 t) (h : Taken q m m') : q ∉ m.nodes 2 t := by
  have hdisj := (Multiset.nodup_add.mp ht.nodup).2.2
  intro hmem
  refine Multiset.disjoint_left.mp hdisj hmem ?_
  rw [h.freelist]
  exact List.mem_cons_self

theorem Taken.tree_total (ht : m.Tree 2 t) (h : Taken q m m') :
    m.nodes 2 t + m.freelist = q ::ₘ (m'.nodes 2 t + m'.freelist) := by
  rw [h.nodes (ht.not_mem_nodes_of_taken h), h.freelist, ← Multiset.cons_coe, Multiset.add_cons]

theorem Tree.taken (ht : m.Tree 2 t) (h : Taken q m m') : m'.Tree 2 t ∧ q ∉ m'.nodes 2 t + m'.freelist ∧
    m.layout.endPage ≤ q ∧ q < PHYSTOP / PGSIZE := by
  have htotal := h.tree_total ht
  have hsame := h.same (ht.not_mem_nodes_of_taken h)
  obtain ⟨hnd, hrange, hplain⟩ := ht
  rw [htotal, Multiset.nodup_cons] at hnd
  rw [htotal] at hrange
  refine ⟨⟨hnd.2, fun p hp => ?_, hplain.congr hsame⟩, hnd.1, hrange q (Multiset.mem_cons_self _ _)⟩
  rw [h.layout]
  exact hrange p (Multiset.mem_cons_of_mem hp)

/-- A page that could not be mapped is freed again. -/
theorem Mapped.of_given_back {m₂ : Phys} (ht : m.Tree 2 t) (h₁ : Taken q m m₁) (h₂ : Mapped t (m₁.entry t) m₁ m₂)
    (h₃ : Taken q m' m₂) : Mapped t (m.entry t) m m' := by
  have hq := ht.not_mem_nodes_of_taken h₁
  have hq₂ : q ∉ m₂.nodes 2 t + m₂.freelist := by
    rw [h₂.total]
    exact (ht.taken h₁).2.1
  have hpage : ∀ u ∈ m₂.nodes 2 t, m'.page u = m₂.page u := fun u hu =>
    (h₃.frame u fun heq => hq₂ (Multiset.mem_add.mpr (Or.inl (heq ▸ hu)))).symm
  refine ⟨?_, fun p hp => ?_, fun w hw => ?_, ?_, ?_, ?_⟩
  · rw [h₁.tree_total ht, h₃.freelist, nodes_congr hpage, ← Multiset.cons_coe, Multiset.add_cons, h₂.total]
  · rw [h₁.tree_total ht, Multiset.mem_cons, not_or] at hp
    rw [← h₃.frame p hp.1, h₂.frame p hp.2, h₁.frame p hp.1]
  · rw [entry_congr hpage, h₂.entry w hw, h₁.entry hq]
  · exact h₂.plain.congr hpage
  · rw [← h₃.layout, h₂.layout, h₁.layout]
  · intro h
    rw [← h₃.refused]
    exact h₂.refused (h₁.refused.trans h)

theorem Space.taken (hs : m.Space t) (h : Taken q m m') : q ∉ m'.nodes 2 t + m'.leaves t + m'.freelist := by
  have hnd := hs.nodup
  rw [h.total (hs.tree.not_mem_nodes_of_taken h), Multiset.nodup_cons] at hnd
  exact hnd.1

end Phys

open Phys

/-- What `kalloc` does, when what it hands out is written over. -/
theorem kalloc_takes (m : Phys) : Ends kalloc m fun r m' => match r with
    | none => m'.freelist = m.freelist ∧ m'.page = m.page ∧ m'.layout = m.layout ∧ m'.refused = true
    | some q => Taken q m m' := by
  refine (kalloc_ends m).mono fun r m' h => ?_
  obtain ⟨hlayout, h⟩ := h
  cases r with
  | none => exact ⟨h.1, h.2.1, hlayout, h.2.2⟩
  | some q => exact ⟨h.1, fun u hu => by rw [h.2.1, Function.update_of_ne hu], hlayout, h.2.2⟩

/-- `kfree` undoes that. -/
theorem kfree_ends {q : ℕ} {m : Phys} (hlo : m.layout.endPage ≤ q) (hhi : q < PHYSTOP / PGSIZE) :
    Ends (kfree q) m fun _ m' => Taken q m' m := by
  rw [kfree]
  refine .get_bind ?_
  rw [if_neg (by omega)]
  exact .write ⟨rfl, fun u hu => (setPage_page_of_ne _ hu).symm, rfl, rfl⟩

namespace Phys

variable {m m' m₁ m₂ : Phys} {t v w q sz : ℕ}

/-! ## Promised pages -/

/-- Some promised pages below `sz` have got a page of zeros, and pages may have come into the page table. -/
structure Faulted (sz t : ℕ) (m m' : Phys) : Prop where
  total : m'.nodes 2 t + m'.leaves t + m'.freelist = m.nodes 2 t + m.leaves t + m.freelist
  frame : ∀ p, p ∉ m.nodes 2 t + m.freelist → m'.page p = m.page p
  old : ∀ v, v < 67108864 → m.entry t v ≠ none → m'.entry t v = m.entry t v
  new : ∀ v, v < 67108864 → m.entry t v = none → m'.entry t v = none ∨
    v * PGSIZE < sz ∧ ∃ q, m'.entry t v = some (q, PTE_W ||| PTE_U ||| PTE_R ||| PTE_V) ∧ m'.page q = filled 0
  plain : m'.Plain 2 t
  layout : m'.layout = m.layout
  refused : m.refused = true → m'.refused = true

theorem Space.faulted (hs : m.Space t) (hf : Faulted sz t m m') : m'.Space t := by
  refine ⟨?_, ?_, hf.plain⟩
  · rw [hf.total]
    exact hs.nodup
  · rw [hf.total, hf.layout]
    exact hs.range

namespace Faulted

theorem refl (hs : m.Space t) : Faulted sz t m m :=
  ⟨rfl, fun _ _ => rfl, fun _ _ _ => rfl, fun _ _ h => Or.inl h, hs.plain, rfl, id⟩

/-- Nothing is mapped, but pages may have come into the page table. -/
theorem of_mapped (h : Mapped t (m.entry t) m m') : Faulted sz t m m' where
  total := by
    have hleaves : m'.leaves t = m.leaves t :=
      leaves_congr fun v hv => h.entry v (lt_of_lt_USERPAGES hv)
    rw [hleaves, add_right_comm, h.total, add_right_comm]
  frame := h.frame
  old v hv _ := h.entry v hv
  new v hv hnone := Or.inl ((h.entry v hv).trans hnone)
  plain := h.plain
  layout := h.layout
  refused := h.refused

theorem leaf_page (hs : m.Space t) (h : Faulted sz t m m') (hq : q ∈ m.leaves t) : m'.page q = m.page q :=
  h.frame q (hs.leaf_not_mem hq)

/-- A page that was outside the page table and the free list still is. -/
theorem not_mem (hs : m.Space t) (h : Faulted sz t m m') {p : ℕ} (hp : p ∉ m.nodes 2 t + m.freelist) :
    p ∉ m'.nodes 2 t + m'.freelist := by
  intro hmem
  have htotal : p ∈ m.nodes 2 t + m.leaves t + m.freelist := by
    rw [← h.total]
    exact Multiset.mem_of_le (Space.tree_le m' t) hmem
  rw [add_right_comm, Multiset.mem_add] at htotal
  obtain ⟨w, hw, f, hf⟩ := mem_leaves.mp (htotal.resolve_left hp)
  refine (hs.faulted h).leaf_not_mem (mem_leaves.mpr ⟨w, hw, f, ?_⟩) hmem
  rw [h.old w (lt_of_lt_USERPAGES hw) (by rw [hf]; exact Option.some_ne_none _), hf]

theorem trans (hs : m.Space t) (hsz : sz ≤ TRAPFRAME) (h₁ : Faulted sz t m m₁) (h₂ : Faulted sz t m₁ m') :
    Faulted sz t m m' where
  total := h₂.total.trans h₁.total
  frame p hp := by
    rw [h₂.frame p (h₁.not_mem hs hp), h₁.frame p hp]
  old v hv hne := by
    have hv₁ := h₁.old v hv hne
    rw [h₂.old v hv (hv₁.trans_ne hne), hv₁]
  new v hv hnone := by
    obtain hnone₁ | ⟨hlt, q, hq, hpage⟩ := h₁.new v hv hnone
    · exact h₂.new v hv hnone₁
    · have hmem : q ∈ m₁.leaves t := mem_leaves.mpr ⟨v, page_lt_USERPAGES hsz hlt, _, hq⟩
      refine Or.inr ⟨hlt, q, ?_, ?_⟩
      · rw [h₂.old v hv (by rw [hq]; exact Option.some_ne_none _), hq]
      · rw [leaf_page (hs.faulted h₁) h₂ hmem, hpage]
  plain := h₂.plain
  layout := h₂.layout.trans h₁.layout
  refused h := h₂.refused (h₁.refused h)

/-- `kalloc` has failed. -/
theorem of_refused (hs : m.Space t) (hfree : m'.freelist = m.freelist) (hpage : m'.page = m.page)
    (hlayout : m'.layout = m.layout) (hrefused : m'.refused = true) : Faulted sz t m m' :=
  .of_mapped (Grown.of_eq hs.plain hfree hpage hlayout fun _ => hrefused).mapped

/-- A page of zeros from the free list is mapped at a promised page. -/
theorem of_taken (hs : m.Space t) (hv : v < USERPAGES) (hlt : v * PGSIZE < sz) (hnone : m.entry t v = none)
    (hzero : m₁.page q = filled 0) (h₁ : Taken q m m₁)
    (h₂ : Mapped t (fun w => if w = v then some (q, PTE_W ||| PTE_U ||| PTE_R ||| PTE_V) else m₁.entry t w) m₁ m') :
    Faulted sz t m m' := by
  have hq := hs.tree.not_mem_nodes_of_taken h₁
  have hnot := hs.taken h₁
  have hentry : ∀ w, w < 67108864 → m'.entry t w =
      if w = v then some (q, PTE_W ||| PTE_U ||| PTE_R ||| PTE_V) else m.entry t w := fun w hw => by
    rw [h₂.entry w hw, h₁.entry hq]
  have hleaves : m'.leaves t = q ::ₘ m.leaves t := by
    have hupd := leaves_update hv fun w hw hlt => show m'.entry t w = m.entry t w by
      rw [hentry w (lt_of_lt_USERPAGES hlt), if_neg hw]
    rw [hnone, hentry v (lt_of_lt_USERPAGES hv), if_pos rfl, Option.elim_none, add_zero, Option.elim_some] at hupd
    rw [hupd, add_comm, Multiset.singleton_add]
  refine ⟨?_, fun p hp => ?_, fun w hw hne => ?_, fun w hw hnone => ?_, h₂.plain, h₂.layout.trans h₁.layout,
    fun h => h₂.refused (h₁.refused.trans h)⟩
  · rw [hleaves, h₁.total hq, add_right_comm, h₂.total, h₁.leaves hq, Multiset.add_cons, add_right_comm]
  · have hpq : p ≠ q := by
      rintro rfl
      refine hp (Multiset.mem_add.mpr (Or.inr ?_))
      rw [h₁.freelist]
      exact List.mem_cons_self
    rw [h₂.frame p, h₁.frame p hpq]
    rw [h₁.nodes hq]
    intro hmem
    refine hp ?_
    rw [h₁.freelist, ← Multiset.cons_coe, Multiset.add_cons]
    exact Multiset.mem_cons_of_mem hmem
  · rw [hentry w hw, if_neg]
    rintro rfl
    exact hne hnone
  · by_cases hwv : w = v
    · refine Or.inr ⟨hwv ▸ hlt, q, by rw [hentry w hw, if_pos hwv], ?_⟩
      rw [h₂.frame q fun hmem => hnot (Multiset.mem_of_le (Space.tree_le m₁ t) hmem), hzero]
    · exact Or.inl (by rw [hentry w hw, if_neg hwv, hnone])

end Faulted

end Phys

/-! ## Finding pages -/

namespace Phys

/-- The page of user memory that `walkaddr` finds. -/
def userPage (m : Phys) (t v : ℕ) : Option ℕ :=
  if v < 67108864 then (m.entry t v).bind fun e => if e.2 &&& PTE_U = 0 then none else some e.1 else none

/-- What the kernel sees of page `v` of a process; pages that are promised it sees as zeros. -/
def seen (m : Phys) (p : UserProc) (v : ℕ) : Option (Bytes PGSIZE) :=
  match m.userPage p.pagetable v with
  | some q => some (m.page q)
  | none => if v * PGSIZE < p.sz ∧ m.entry p.pagetable v = none then some (filled 0) else none

end Phys

variable {m : Phys} {t v : ℕ} {p : UserProc}

theorem page_lt_MAXVA (hv : v < 67108864) : v * PGSIZE < MAXVA := by
  change v * 4096 < 274877906944
  omega

theorem decode_isSome (x : ℕ) : (decode x).isSome = decide (x &&& PTE_V ≠ 0) := by
  unfold decode
  split_ifs with h
  · exact (decide_eq_false (not_not.mpr h)).symm
  · exact (decide_eq_true h).symm

theorem flags_and_PTE_U (x : ℕ) : PTE_FLAGS x &&& PTE_U = x &&& PTE_U := by
  rw [PTE_FLAGS, Nat.and_assoc]
  rfl

theorem ismapped_ends (hv : v < 67108864) : Ends (ismapped t (v * PGSIZE)) m fun r m' =>
    m' = m ∧ r = (m.entry t v).isSome := by
  rw [ismapped]
  refine .bind (walk_find (page_lt_MAXVA hv) t m) fun r m' h => ?_
  obtain ⟨rfl, rfl⟩ := h
  rw [Phys.entry, Phys.leaf]
  cases Radix.table m'.child PX 2 t (v * PGSIZE) with
  | none => exact .pure ⟨rfl, rfl⟩
  | some u =>
    refine .get_bind ?_
    exact .pure ⟨rfl, (decode_isSome _).symm⟩

theorem walkaddr_ends (m : Phys) (t v : ℕ) : Ends (walkaddr t (v * PGSIZE)) m fun r m' =>
    m' = m ∧ r = m.userPage t v := by
  rw [walkaddr, Phys.userPage]
  by_cases hv : v < 67108864
  · rw [if_neg (Nat.not_le.mpr (page_lt_MAXVA hv)), if_pos hv]
    refine .bind (walk_find (page_lt_MAXVA hv) t m) fun r m' h => ?_
    obtain ⟨rfl, rfl⟩ := h
    rw [Phys.entry, Phys.leaf]
    cases Radix.table m'.child PX 2 t (v * PGSIZE) with
    | none => exact .pure ⟨rfl, rfl⟩
    | some u =>
      refine .get_bind ?_
      rw [Option.bind_some, decode]
      by_cases hvalid : m'.pte u (PX 0 (v * PGSIZE)) &&& PTE_V = 0
      · rw [if_pos hvalid, if_pos hvalid]
        exact .pure ⟨rfl, rfl⟩
      · rw [if_neg hvalid, if_neg hvalid, Option.bind_some, flags_and_PTE_U]
        split_ifs
        · exact .pure ⟨rfl, rfl⟩
        · exact .pure ⟨rfl, rfl⟩
  · have hva : v * PGSIZE ≥ MAXVA := by
      change v * 4096 ≥ 274877906944
      omega
    rw [if_pos hva, if_neg hv]
    exact .pure ⟨rfl, rfl⟩

/-- What `vmfault` does. -/
theorem vmfault_ends (hs : m.Space p.pagetable) (hsz : p.sz ≤ TRAPFRAME) (va : ℕ) :
    Ends (vmfault p p.pagetable va) m fun r m' => Faulted p.sz p.pagetable m m' ∧ match r with
      | none => p.sz ≤ va ∨ m.entry p.pagetable (va / PGSIZE) ≠ none ∨ m'.refused = true
      | some q => va < p.sz ∧ m.entry p.pagetable (va / PGSIZE) = none ∧
        m'.entry p.pagetable (va / PGSIZE) = some (q, PTE_W ||| PTE_U ||| PTE_R ||| PTE_V) := by
  rw [vmfault]
  by_cases hlt : va < p.sz
  · have hlt' : va / PGSIZE * PGSIZE < p.sz := Nat.lt_of_le_of_lt (Nat.div_mul_le_self _ _) hlt
    have hv : va / PGSIZE < USERPAGES := page_lt_USERPAGES hsz hlt'
    rw [if_neg (Nat.not_le.mpr hlt)]
    refine .bind (ismapped_ends (lt_of_lt_USERPAGES hv)) fun r m' h => ?_
    obtain ⟨rfl, rfl⟩ := h
    cases hentry : m'.entry p.pagetable (va / PGSIZE) with
    | some e => exact .pure ⟨.refl hs, Or.inr (Or.inl (Option.some_ne_none e))⟩
    | none =>
      refine .bind (kalloc_takes m') fun r m₁ h => ?_
      cases r with
      | none =>
        obtain ⟨hfree, hpage, hlayout, hrefused⟩ := h
        exact .pure ⟨.of_refused hs hfree hpage hlayout hrefused, Or.inr (Or.inr hrefused)⟩
      | some q =>
        refine .bind (.write (Q := fun _ m₂ => m₂ = m₁.setPage q (filled 0)) rfl) fun _ m₂ h₂ => ?_
        have htaken : Taken q m' m₂ := h₂ ▸ h.setPage (filled 0)
        have hzero : m₂.page q = filled 0 := by rw [h₂, setPage_page_self]
        obtain ⟨ht₂, -, hlo, hhi⟩ := hs.tree.taken htaken
        have hnone : m₂.entry p.pagetable (va / PGSIZE) = none := by
          rw [htaken.entry (hs.tree.not_mem_nodes_of_taken htaken), hentry]
        refine .bind (mappages_ends ht₂ (lt_of_lt_USERPAGES hv) hnone hhi (by decide)) fun ok m₃ h₃ => ?_
        cases ok with
        | true =>
          refine .pure ⟨.of_taken hs hv hlt' hentry hzero htaken h₃, hlt, rfl, ?_⟩
          rw [h₃.entry _ (lt_of_lt_USERPAGES hv), if_pos rfl]
        | false =>
          obtain ⟨hmapped, hrefused⟩ := h₃
          refine .bind (kfree_ends (m := m₃) ?_ hhi) fun _ m₄ h₄ => .pure ⟨.of_mapped (.of_given_back hs.tree htaken hmapped h₄), ?_⟩
          · rw [hmapped.layout, htaken.layout]
            exact hlo
          · exact Or.inr (Or.inr (h₄.refused.symm.trans hrefused))
  · rw [if_pos (Nat.not_lt.mp hlt)]
    exact .pure ⟨.refl hs, Or.inl (Nat.not_lt.mp hlt)⟩

/-! ## The address space of a process -/

namespace Phys

variable {m m' : Phys} {p : UserProc} {q v : ℕ}

/-- The address space of a process; the user has no access to what is above `TRAPFRAME`. -/
structure UserSpace (m : Phys) (p : UserProc) : Prop where
  space : m.Space p.pagetable
  sz_le : p.sz ≤ TRAPFRAME
  high : ∀ v, USERPAGES ≤ v → v < 67108864 → ∀ e, m.entry p.pagetable v = some e → e.2 &&& PTE_U = 0

theorem userPage_eq_some : m.userPage p.pagetable v = some q ↔
    v < 67108864 ∧ ∃ f, m.entry p.pagetable v = some (q, f) ∧ f &&& PTE_U ≠ 0 := by
  rw [userPage]
  split_ifs with hv
  · rw [Option.bind_eq_some_iff, and_iff_right hv]
    constructor
    · rintro ⟨e, he, hq⟩
      split_ifs at hq with hf
      exact ⟨e.2, by rw [he, ← Option.some.inj hq], hf⟩
    · rintro ⟨f, he, hf⟩
      exact ⟨(q, f), he, if_neg hf⟩
  · exact ⟨fun h => (by cases h), fun h => absurd h.1 hv⟩

theorem UserSpace.page_lt (hu : m.UserSpace p) (h : m.userPage p.pagetable v = some q) : v < USERPAGES := by
  obtain ⟨hv, f, hf, hne⟩ := userPage_eq_some.mp h
  exact Nat.lt_of_not_le fun hle => hne (hu.high v hle hv _ hf)

theorem UserSpace.mem_leaves (hu : m.UserSpace p) (h : m.userPage p.pagetable v = some q) :
    q ∈ m.leaves p.pagetable := by
  obtain ⟨hv, f, hf, hne⟩ := userPage_eq_some.mp h
  exact Phys.mem_leaves.mpr ⟨v, hu.page_lt h, f, hf⟩

/-- A physical page is one page of user memory at most. -/
theorem UserSpace.userPage_inj (hu : m.UserSpace p) {w : ℕ} (hv : m.userPage p.pagetable v = some q)
    (hw : m.userPage p.pagetable w = some q) : v = w := by
  obtain ⟨-, f, hf, -⟩ := userPage_eq_some.mp hv
  obtain ⟨-, g, hg, -⟩ := userPage_eq_some.mp hw
  have hle : m.leaves p.pagetable ≤ m.nodes 2 p.pagetable + m.leaves p.pagetable + m.freelist :=
    le_trans (Multiset.le_add_left _ _) (Multiset.le_add_right _ _)
  exact leaf_inj (Multiset.nodup_of_le hle hu.space.nodup) (hu.page_lt hv) (hu.page_lt hw) hf hg

theorem UserSpace.faulted (hu : m.UserSpace p) (hf : Faulted p.sz p.pagetable m m') : m'.UserSpace p where
  space := hu.space.faulted hf
  sz_le := hu.sz_le
  high v hlo hhi e he := by
    by_cases hnone : m.entry p.pagetable v = none
    · obtain hnone' | ⟨hlt, -⟩ := hf.new v hhi hnone
      · rw [hnone'] at he
        cases he
      · exact absurd (page_lt_USERPAGES hu.sz_le hlt) (Nat.not_lt.mpr hlo)
    · rw [hf.old v hhi hnone] at he
      exact hu.high v hlo hhi e he

/-- A page that is mapped stays, with what is in it. -/
theorem Faulted.keeps_page (hu : m.UserSpace p) (hf : Faulted p.sz p.pagetable m m')
    (hq : m.userPage p.pagetable v = some q) : m'.userPage p.pagetable v = some q ∧ m'.page q = m.page q := by
  obtain ⟨hv, f, hentry, -⟩ := userPage_eq_some.mp hq
  have hne : m.entry p.pagetable v ≠ none := by
    rw [hentry]
    exact Option.some_ne_none _
  refine ⟨?_, hf.leaf_page hu.space (hu.mem_leaves hq)⟩
  rw [← hq, userPage, userPage, hf.old v hv hne]

theorem seen_of_userPage (h : m.userPage p.pagetable v = some q) : m.seen p v = some (m.page q) := by
  rw [seen, h]

theorem seen_of_none (h : m.userPage p.pagetable v = none) : m.seen p v =
    if v * PGSIZE < p.sz ∧ m.entry p.pagetable v = none then some (filled 0) else none := by
  rw [seen, h]

/-- A page of zeros is no other sight than a promised page. -/
theorem Faulted.seen (hu : m.UserSpace p) (hf : Faulted p.sz p.pagetable m m') : m'.seen p = m.seen p := by
  funext v
  by_cases hv : v < 67108864
  · by_cases hnone : m.entry p.pagetable v = none
    · have hpage : m.userPage p.pagetable v = none := by
        rw [userPage, if_pos hv, hnone]
        rfl
      rw [seen_of_none hpage]
      obtain hnone' | ⟨hlt, q, hq, hzero⟩ := hf.new v hv hnone
      · have hpage' : m'.userPage p.pagetable v = none := by
          rw [userPage, if_pos hv, hnone']
          rfl
        rw [seen_of_none hpage', hnone, hnone']
      · have hpage' : m'.userPage p.pagetable v = some q :=
          userPage_eq_some.mpr ⟨hv, _, hq, by decide⟩
        rw [seen_of_userPage hpage', if_pos ⟨hlt, hnone⟩, hzero]
    · have hpage : m'.userPage p.pagetable v = m.userPage p.pagetable v := by
        rw [userPage, userPage, hf.old v hv hnone]
      cases hq : m.userPage p.pagetable v with
      | none => rw [seen_of_none hq, seen_of_none (hpage.trans hq), hf.old v hv hnone]
      | some q =>
        rw [seen_of_userPage hq, seen_of_userPage (hpage.trans hq), hf.leaf_page hu.space (hu.mem_leaves hq)]
  · have hle : ¬ (v * PGSIZE < p.sz) := fun hlt =>
      hv (lt_of_lt_USERPAGES (page_lt_USERPAGES hu.sz_le hlt))
    rw [seen_of_none (by rw [userPage, if_neg hv]), seen_of_none (by rw [userPage, if_neg hv]), if_neg fun h => hle h.1,
      if_neg fun h => hle h.1]

end Phys

/-- An empty page table is an address space. -/
theorem Phys.UserSpace.of_zero (hpage : m.page p.pagetable = filled 0) (hnd : (p.pagetable :: m.freelist).Nodup)
    (hrange : ∀ q ∈ p.pagetable :: m.freelist, m.layout.endPage ≤ q ∧ q < PHYSTOP / PGSIZE) (hsz : p.sz ≤ TRAPFRAME) :
    m.UserSpace p := by
  have hentry : ∀ v, m.entry p.pagetable v = none := fun v => leaf_of_zero hpage 2 _
  have hleaves : m.leaves p.pagetable = 0 := by
    refine Multiset.eq_zero_of_forall_notMem fun q hq => ?_
    obtain ⟨v, -, f, hf⟩ := Phys.mem_leaves.mp hq
    rw [hentry] at hf
    cases hf
  have htotal : m.nodes 2 p.pagetable + m.leaves p.pagetable + m.freelist = ↑(p.pagetable :: m.freelist) := by
    rw [hleaves, add_zero, nodes_of_zero hpage, Multiset.singleton_add, Multiset.cons_coe]
  refine ⟨⟨?_, ?_, ?_⟩, hsz, fun v _ _ e he => ?_⟩
  · rw [htotal]
    exact hnd
  · rw [htotal]
    exact hrange
  · intro u hu i e he
    have hmem : u ∈ m.nodes 2 p.pagetable := Radix.mem_nodes.mpr (Or.inl hu)
    rw [nodes_of_zero hpage, Multiset.mem_singleton] at hmem
    rw [hmem, pte_of_zero hpage, decode_zero] at he
    cases he
  · rw [hentry] at he
    cases he

/-- Memory with an empty page table in page 1 and three free pages. -/
def emptySpace : Phys where
  layout := ⟨1, 0⟩
  freelist := [2, 3, 4]
  page _ := filled 0
  refusals := []
  refused := false

theorem emptySpace_userSpace : emptySpace.UserSpace ⟨1, 4096⟩ :=
  .of_zero rfl (by decide) (by decide) (by decide)

/-- What the copies do to find a page. -/
theorem useraddr_ends (hu : m.UserSpace p) (v : ℕ) : Ends (useraddr p p.pagetable (v * PGSIZE)) m fun r m' =>
    Faulted p.sz p.pagetable m m' ∧ match r with
      | none => m.seen p v = none ∨ m'.refused = true
      | some q => m'.userPage p.pagetable v = some q := by
  rw [useraddr]
  refine .bind (walkaddr_ends m p.pagetable v) fun r m' h => ?_
  obtain ⟨rfl, rfl⟩ := h
  cases hpage : m'.userPage p.pagetable v with
  | some q => exact .pure ⟨.refl hu.space, hpage⟩
  | none =>
    refine (vmfault_ends hu.space hu.sz_le (v * PGSIZE)).mono fun r m₁ h => ⟨h.1, ?_⟩
    have hdiv : v * PGSIZE / PGSIZE = v := Nat.mul_div_cancel v (by decide)
    rw [hdiv] at h
    cases r with
    | none =>
      refine h.2.elim (fun hle => Or.inl ?_) fun h => h.imp (fun hne => ?_) id
      · rw [seen_of_none hpage, if_neg fun h => absurd h.1 (Nat.not_lt.mpr hle)]
      · rw [seen_of_none hpage, if_neg fun h => hne h.2]
    | some q =>
      obtain ⟨hlt, -, hq⟩ := h.2
      exact userPage_eq_some.mpr ⟨lt_of_lt_USERPAGES (page_lt_USERPAGES hu.sz_le hlt), _, hq, by decide⟩

end Xv6
