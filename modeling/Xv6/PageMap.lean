import Mathlib.Algebra.BigOperators.Intervals
import Xv6.UserSpace

/-!
# Mapping and unmapping

`uvmunmap` clears the entries of a range of pages and, with `do_free` set, frees the pages that they lead to
(`Phys.Cleared`). Together with `mappages` this makes a page table a map from pages to physical pages and flags : each
call changes the map as it should, wherever in the tree the entries are (`pageTable_refines`).
-/

namespace Xv6

namespace Phys

variable {m m' m₁ : Phys} {t u v w n q : ℕ} {f g : ℕ → Option (ℕ × ℕ)} {A B : Multiset ℕ}

/-- A map, with `n` pages from `v` on cleared. -/
def clearRange (f : ℕ → Option (ℕ × ℕ)) (v n w : ℕ) : Option (ℕ × ℕ) :=
  if v ≤ w ∧ w < v + n then none else f w

/-- The pages that `n` entries from `v` on lead to. -/
def pagesIn (m : Phys) (t v n : ℕ) : Multiset ℕ :=
  ∑ w ∈ Finset.Ico v (v + n), (m.entry t w).elim 0 fun e => {e.1}

theorem pagesIn_zero (m : Phys) (t v : ℕ) : m.pagesIn t v 0 = 0 := by
  rw [pagesIn, Nat.add_zero, Finset.Ico_self, Finset.sum_empty]

theorem pagesIn_succ (m : Phys) (t v n : ℕ) :
    m.pagesIn t v (n + 1) = ((m.entry t v).elim 0 fun e => {e.1}) + m.pagesIn t (v + 1) n := by
  rw [pagesIn, Finset.sum_eq_sum_Ico_succ_bot (by omega), pagesIn, Nat.add_right_comm, Nat.add_assoc]

theorem pagesIn_congr (h : ∀ w, v ≤ w → w < v + n → m'.entry t w = m.entry t w) : m'.pagesIn t v n = m.pagesIn t v n :=
  Finset.sum_congr rfl fun w hw => by rw [h w (Finset.mem_Ico.mp hw).1 (Finset.mem_Ico.mp hw).2]

theorem mem_pagesIn : q ∈ m.pagesIn t v n ↔ ∃ w, v ≤ w ∧ w < v + n ∧ ∃ f, m.entry t w = some (q, f) := by
  rw [pagesIn, Multiset.mem_sum]
  refine exists_congr fun w => ?_
  rw [Finset.mem_Ico, and_assoc]
  refine and_congr_right fun _ => and_congr_right fun _ => ?_
  cases m.entry t w with
  | none => simp
  | some e =>
    rw [Option.elim_some, Multiset.mem_singleton]
    constructor
    · rintro rfl
      exact ⟨e.2, rfl⟩
    · rintro ⟨f, hf⟩
      rw [Option.some.inj hf]

attribute [irreducible] pagesIn

/-! ## Clearing entries -/

/-- The pages `A` have been freed, and the map of the page table `t` is `f`. -/
structure Cleared (t : ℕ) (f : ℕ → Option (ℕ × ℕ)) (A : Multiset ℕ) (m m' : Phys) : Prop where
  nodes : m'.nodes 2 t = m.nodes 2 t
  freelist : (m'.freelist : Multiset ℕ) = A + m.freelist
  frame : ∀ p, p ∉ m.nodes 2 t → p ∉ A → m'.page p = m.page p
  entry : ∀ v, v < 67108864 → m'.entry t v = f v
  plain : m'.Plain 2 t
  layout : m'.layout = m.layout
  refused : m'.refused = m.refused

namespace Cleared

theorem refl (ht : m.Tree 2 t) : Cleared t (m.entry t) 0 m m :=
  ⟨rfl, (zero_add _).symm, fun _ _ _ => rfl, fun _ _ => rfl, ht.plain, rfl, rfl⟩

theorem congr (h : Cleared t f A m m') (hfg : ∀ v, v < 67108864 → f v = g v) : Cleared t g A m m' :=
  ⟨h.nodes, h.freelist, h.frame, fun v hv => (h.entry v hv).trans (hfg v hv), h.plain, h.layout, h.refused⟩

theorem trans (h₁ : Cleared t f A m m₁) (h₂ : Cleared t g B m₁ m') : Cleared t g (A + B) m m' where
  nodes := h₂.nodes.trans h₁.nodes
  freelist := by rw [h₂.freelist, h₁.freelist, add_left_comm, add_assoc]
  frame p hp hAB := by
    rw [Multiset.mem_add, not_or] at hAB
    rw [h₂.frame p (by rwa [h₁.nodes]) hAB.2, h₁.frame p hp hAB.1]
  entry := h₂.entry
  plain := h₂.plain
  layout := h₂.layout.trans h₁.layout
  refused := h₂.refused.trans h₁.refused

/-- What is free afterwards has been free or has been freed. -/
theorem total (h : Cleared t f A m m') : m'.nodes 2 t + m'.freelist = m.nodes 2 t + A + m.freelist := by
  rw [h.nodes, h.freelist, add_assoc]

theorem tree (ht : m.Tree 2 t) (h : Cleared t f A m m') (hnd : (m.nodes 2 t + A + m.freelist).Nodup)
    (hA : ∀ p ∈ A, m.layout.endPage ≤ p ∧ p < PHYSTOP / PGSIZE) : m'.Tree 2 t := by
  refine ⟨?_, fun p hp => ?_, h.plain⟩
  · rw [h.total]
    exact hnd
  · rw [h.total, add_right_comm, Multiset.mem_add] at hp
    rw [h.layout]
    exact hp.elim (ht.range p) (hA p)

/-- `kfree` of a page that is not part of the page table. -/
theorem of_kfree (ht : m.Tree 2 t) (hq : q ∉ m.nodes 2 t) (h : Taken q m' m) : Cleared t (m.entry t) {q} m m' := by
  have hsame : ∀ u ∈ m.nodes 2 t, m'.page u = m.page u := fun u hu => (h.frame u fun heq => hq (heq ▸ hu)).symm
  refine ⟨nodes_congr hsame, ?_, fun p _ hp => ?_, fun v _ => entry_congr hsame v, ht.plain.congr hsame, h.layout.symm,
    h.refused.symm⟩
  · rw [h.freelist, ← Multiset.cons_coe, Multiset.singleton_add]
  · exact (h.frame p fun heq => hp (heq ▸ Multiset.mem_singleton_self q)).symm

/-- The entry of a page is set to 0. -/
theorem of_setPte (ht : m.Tree 2 t) (hv : v < 67108864) (hu : Radix.table m.child PX 2 t (v * PGSIZE) = some u) :
    Cleared t (fun w => if w = v then none else m.entry t w) 0 m (m.setPte u (PX 0 (v * PGSIZE)) 0) := by
  obtain ⟨hnodes, hplain, hleaf⟩ := ht.setLeaf hu (x := 0) (by decide)
  have hmem : u ∈ m.nodes 2 t := Radix.mem_nodes.mpr (Or.inr (Radix.table_mem hu))
  refine ⟨hnodes, (zero_add _).symm, fun p hp _ => ?_, fun w hw => ?_, hplain, rfl, rfl⟩
  · exact setPte_page_of_ne fun heq => hp (heq ▸ hmem)
  · rw [Phys.entry, hleaf, decode_zero]
    by_cases hwv : w = v
    · rw [if_pos fun j _ => by rw [hwv], if_pos hwv]
    · rw [if_neg fun hall => hwv (eq_of_PX (by omega) (by omega) hall), if_neg hwv]
      rfl

/-- The page of an entry is freed, and the entry is set to 0. -/
theorem of_freed (ht : m.Tree 2 t) (hv : v < 67108864) (hu : Radix.table m.child PX 2 t (v * PGSIZE) = some u)
    (hq : q ∉ m.nodes 2 t + m.freelist) (hrange : m.layout.endPage ≤ q ∧ q < PHYSTOP / PGSIZE) (h : Taken q m₁ m) :
    Cleared t (fun w => if w = v then none else m.entry t w) {q} m (m₁.setPte u (PX 0 (v * PGSIZE)) 0) := by
  have hnode : q ∉ m.nodes 2 t := fun hmem => hq (Multiset.mem_add.mpr (Or.inl hmem))
  have hfree := of_kfree ht hnode h
  have hnd : (m.nodes 2 t + {q} + m.freelist).Nodup := by
    rw [add_right_comm, add_comm, Multiset.singleton_add, Multiset.nodup_cons]
    exact ⟨hq, ht.nodup⟩
  have ht₁ := hfree.tree ht hnd fun p hp => (Multiset.mem_singleton.mp hp).symm ▸ hrange
  have hchild : ∀ w ∈ Radix.inner m.child 2 t, m₁.child w = m.child w := fun w hw =>
    child_congr (h.frame w fun heq => hnode (heq ▸ Radix.mem_nodes.mpr (Or.inl hw))).symm
  have hset := of_setPte ht₁ hv ((Radix.table_congr hchild).trans hu)
  refine (hfree.trans hset).congr fun w hw => ?_
  rw [hfree.entry w hw]

end Cleared

/-- The pages that `uvmunmap` frees. -/
def freed (doFree : Bool) (m : Phys) (t v n : ℕ) : Multiset ℕ :=
  if doFree then m.pagesIn t v n else 0

end Phys

open Phys

variable {m m' : Phys} {t v n : ℕ}

/-- What `walk` finds without `alloc`, in terms of the map. -/
theorem walk_entry (hv : v < 67108864) (t : ℕ) (m : Phys) : Ends (walk t (v * PGSIZE) false) m fun r m' => m' = m ∧
    match r with
      | none => m.entry t v = none
      | some s => ∃ u, Radix.table m.child PX 2 t (v * PGSIZE) = some u ∧ s = (u, PX 0 (v * PGSIZE)) ∧
        m.entry t v = decode (m.pte u (PX 0 (v * PGSIZE))) := by
  refine (walk_find (page_lt_MAXVA hv) t m).mono fun r m' h => ⟨h.1, ?_⟩
  obtain ⟨-, rfl⟩ := h
  rw [Phys.entry, Phys.leaf]
  cases htable : Radix.table m.child PX 2 t (v * PGSIZE) with
  | none => rfl
  | some u => exact ⟨u, rfl, rfl, rfl⟩

namespace Phys

variable {doFree : Bool}

theorem freed_succ_of_none (h : m.entry t v = none) : m.freed doFree t v (n + 1) = m.freed doFree t (v + 1) n := by
  rw [freed, freed, pagesIn_succ, h, Option.elim_none, zero_add]

theorem freed_succ {e : ℕ × ℕ} (h : m.entry t v = some e) : m.freed doFree t v (n + 1) =
    (if doFree then {e.1} else 0) + m.freed doFree t (v + 1) n := by
  rw [freed, freed, pagesIn_succ, h, Option.elim_some]
  split_ifs
  · rfl
  · exact (zero_add _).symm

theorem freed_congr (h : ∀ w, v ≤ w → w < v + n → m'.entry t w = m.entry t w) :
    m'.freed doFree t v n = m.freed doFree t v n := by
  rw [freed, freed, pagesIn_congr h]

theorem clearRange_succ (f : ℕ → Option (ℕ × ℕ)) (v n w : ℕ) :
    clearRange (fun w => if w = v then none else f w) (v + 1) n w = clearRange f v (n + 1) w := by
  unfold clearRange
  dsimp only
  by_cases hwv : w = v
  · rw [if_neg (by omega), if_pos hwv, if_pos (by omega)]
  · rw [if_neg hwv]
    exact if_congr (by omega) rfl rfl

end Phys

theorem uvmunmapFrom_ends (doFree : Bool) (n : ℕ) : ∀ {m : Phys} {v : ℕ}, m.Tree 2 t → v + n ≤ 67108864 →
    (m.nodes 2 t + m.freed doFree t v n + m.freelist).Nodup →
    (∀ p ∈ m.freed doFree t v n, m.layout.endPage ≤ p ∧ p < PHYSTOP / PGSIZE) →
    Ends (uvmunmapFrom t doFree n (v * PGSIZE)) m fun _ m' =>
      Cleared t (clearRange (m.entry t) v n) (m.freed doFree t v n) m m' := by
  induction n with
  | zero =>
    intro m v ht _ _ _
    have hzero : m.freed doFree t v 0 = 0 := by rw [freed, pagesIn_zero, ite_self]
    rw [hzero]
    exact .pure ((Cleared.refl ht).congr fun w _ => (if_neg (by omega)).symm)
  | succ n ih =>
    intro m v ht hv hnd hrange
    have hskip : m.entry t v = none → Ends (uvmunmapFrom t doFree n (v * PGSIZE + PGSIZE)) m fun _ m' =>
        Cleared t (clearRange (m.entry t) v (n + 1)) (m.freed doFree t v (n + 1)) m m' := fun hnone => by
      rw [freed_succ_of_none hnone] at hnd hrange ⊢
      rw [← Nat.succ_mul]
      refine (ih ht (by omega) hnd hrange).mono fun _ m' h => h.congr fun w _ => ?_
      rw [← clearRange_succ]
      refine congrArg (clearRange · (v + 1) n w) (funext fun w => ?_)
      split_ifs with hwv
      · rw [hwv, hnone]
      · rfl
    rw [uvmunmapFrom]
    refine .bind (walk_entry (show v < 67108864 by omega) t m) fun r m₁ h => ?_
    obtain ⟨rfl, h⟩ := h
    cases r with
    | none => exact hskip h
    | some s =>
      obtain ⟨u, hu, rfl, hentry⟩ := h
      refine .get_bind ?_
      dsimp only
      by_cases hvalid : m₁.pte u (PX 0 (v * PGSIZE)) &&& PTE_V = 0
      · rw [if_pos hvalid]
        rw [decode, if_pos hvalid] at hentry
        exact hskip hentry
      · rw [if_neg hvalid]
        rw [decode, if_neg hvalid] at hentry
        rw [freed_succ hentry] at hnd hrange ⊢
        dsimp only at hnd hrange ⊢
        generalize PTE2PA (m₁.pte u (PX 0 (v * PGSIZE))) = q at hnd hrange ⊢
        -- once the entry is cleared, the rest of the range is as it was
        have hrest : ∀ m₂, Cleared t (fun w => if w = v then none else m₁.entry t w) (if doFree then {q} else 0) m₁ m₂ →
            m₂.Tree 2 t → Ends (uvmunmapFrom t doFree n (v * PGSIZE + PGSIZE)) m₂ fun _ m' =>
              Cleared t (clearRange (m₁.entry t) v (n + 1)) ((if doFree then {q} else 0) + m₁.freed doFree t (v + 1) n)
                m₁ m' := by
          intro m₂ hstep ht₂
          have hsame : m₂.freed doFree t (v + 1) n = m₁.freed doFree t (v + 1) n := freed_congr fun w hlo hhi => by
            rw [hstep.entry w (by omega), if_neg (by omega)]
          rw [← Nat.succ_mul]
          refine (ih ht₂ (by omega) ?_ fun p hp => ?_).mono fun _ m' h => ?_
          · rwa [hsame, add_right_comm, hstep.total, add_right_comm, add_assoc (m₁.nodes 2 t)]
          · rw [hstep.layout]
            exact hrange p (Multiset.mem_add.mpr (Or.inr (hsame ▸ hp)))
          · rw [hsame] at h
            refine (hstep.trans h).congr fun w hw => ?_
            rw [← clearRange_succ]
            unfold clearRange
            rw [hstep.entry w hw]
        cases doFree with
        | false =>
          rw [if_neg Bool.false_ne_true]
          have hstep := Cleared.of_setPte ht (show v < 67108864 by omega) hu
          exact .modify_bind (hrest _ hstep (hstep.tree ht (by rw [add_zero]; exact ht.nodup) fun p hp => absurd hp
            (Multiset.notMem_zero p)))
        | true =>
          rw [if_pos rfl]
          have hq : q ∉ m₁.nodes 2 t + m₁.freelist := by
            have hle : q ::ₘ (m₁.nodes 2 t + m₁.freelist) ≤
                m₁.nodes 2 t + ({q} + m₁.freed true t (v + 1) n) + m₁.freelist := by
              refine le_trans (Multiset.le_add_right _ (m₁.freed true t (v + 1) n)) (le_of_eq ?_)
              rw [← Multiset.singleton_add]
              abel
            exact (Multiset.nodup_cons.mp (Multiset.nodup_of_le hle hnd)).1
          obtain ⟨hlo, hhi⟩ := hrange q (Multiset.mem_add.mpr (Or.inl (Multiset.mem_singleton_self q)))
          refine .bind (kfree_ends hlo hhi) fun _ m₂ h => .modify_bind ?_
          have hstep := Cleared.of_freed ht (show v < 67108864 by omega) hu hq ⟨hlo, hhi⟩ h
          refine hrest _ hstep (hstep.tree ht ?_ fun p hp => (Multiset.mem_singleton.mp hp).symm ▸ ⟨hlo, hhi⟩)
          rw [add_right_comm, add_comm, Multiset.singleton_add, Multiset.nodup_cons]
          exact ⟨hq, ht.nodup⟩

theorem uvmunmap_ends {doFree : Bool} (ht : m.Tree 2 t) (hv : v + n ≤ 67108864)
    (hnd : (m.nodes 2 t + m.freed doFree t v n + m.freelist).Nodup)
    (hrange : ∀ p ∈ m.freed doFree t v n, m.layout.endPage ≤ p ∧ p < PHYSTOP / PGSIZE) :
    Ends (uvmunmap t (v * PGSIZE) n doFree) m fun _ m' =>
      Cleared t (clearRange (m.entry t) v n) (m.freed doFree t v n) m m' := by
  rw [uvmunmap, if_neg (by rw [Nat.mul_mod_left]; simp)]
  exact uvmunmapFrom_ends doFree n ht hv hnd hrange

/-! ## Page tables that are built by these calls -/

/-- The arguments of a call of `mappages`, for `n` pages from `v` on that have no entry. -/
structure MapCall (f : ℕ → Option (ℕ × ℕ)) (v n q perm : ℕ) : Prop where
  pos : n ≠ 0
  below : v + n ≤ 67108864
  phys : q + n ≤ 17592186044416
  flags : perm ||| PTE_V < 1024
  unmapped : ∀ w, v ≤ w → w < v + n → f w = none

/-- The arguments of a call of `uvmunmap`; what it frees are pages of their own. -/
structure UnmapCall (m : Phys) (t v n : ℕ) (doFree : Bool) : Prop where
  below : v + n ≤ 67108864
  nodup : (m.nodes 2 t + m.freed doFree t v n + m.freelist).Nodup
  range : ∀ p ∈ m.freed doFree t v n, m.layout.endPage ≤ p ∧ p < PHYSTOP / PGSIZE

/-- The page table `t` has been built in memory `m`, and `f` is what has been mapped last for each page and not
unmapped since. Between the calls the rest of the kernel may do anything that leaves the pages of the table alone. -/
inductive Built (t : ℕ) : Phys → (ℕ → Option (ℕ × ℕ)) → Prop
  | create {m m' : Phys} : m.freelist.Nodup → (∀ p ∈ m.freelist, m.layout.endPage ≤ p ∧ p < PHYSTOP / PGSIZE) →
      uvmcreate m = .ok (some t, m') → Built t m' fun _ => none
  | map {m m' : Phys} {f : ℕ → Option (ℕ × ℕ)} {v n q perm : ℕ} : Built t m f → MapCall f v n q perm →
      mappages t (v * PGSIZE) (n * PGSIZE) q perm m = .ok (true, m') → Built t m' (mapRange f v n q perm)
  | mapFailed {m m₁ m' : Phys} {f : ℕ → Option (ℕ × ℕ)} {v n q perm k : ℕ} : Built t m f → MapCall f v n q perm → k < n →
      -- `k` pages have been mapped when there is no memory for the page table
      mappagesFrom t perm k (v * PGSIZE) q m = .ok (true, m₁) → walk t ((v + k) * PGSIZE) true m₁ = .ok (none, m') →
      Built t m' (mapRange f v k q perm)
  | unmap {m m' : Phys} {f : ℕ → Option (ℕ × ℕ)} {v n : ℕ} {doFree : Bool} : Built t m f → UnmapCall m t v n doFree →
      uvmunmap t (v * PGSIZE) n doFree m = .ok ((), m') → Built t m' (clearRange f v n)
  | other {m m' : Phys} {f : ℕ → Option (ℕ × ℕ)} : Built t m f → (∀ u ∈ m.nodes 2 t, m'.page u = m.page u) →
      m'.Tree 2 t → Built t m' f

theorem uvmcreate_ends (hnd : m.freelist.Nodup) (hrange : ∀ p ∈ m.freelist, m.layout.endPage ≤ p ∧ p < PHYSTOP / PGSIZE) :
    Ends uvmcreate m fun r m' => match r with
      | none => m'.refused = true
      | some t => m'.Tree 2 t ∧ ∀ v, m'.entry t v = none := by
  rw [uvmcreate]
  refine .bind (kalloc_takes m) fun r m₁ h => ?_
  cases r with
  | none => exact .pure h.2.2.2
  | some t =>
    refine .modify_bind (.pure ?_)
    have hpage : (m₁.setPage t (filled 0)).page t = filled 0 := setPage_page_self _
    have htotal : (m₁.setPage t (filled 0)).nodes 2 t + (m₁.setPage t (filled 0)).freelist = ↑m.freelist := by
      rw [nodes_of_zero hpage, setPage_freelist, Multiset.singleton_add, Multiset.cons_coe, h.freelist]
    refine ⟨⟨?_, fun p hp => ?_, fun u hu i e he => ?_⟩, fun v => leaf_of_zero hpage 2 _⟩
    · rw [htotal]
      exact hnd
    · rw [htotal] at hp
      rw [setPage_layout, h.layout]
      exact hrange p hp
    · have hmem : u ∈ (m₁.setPage t (filled 0)).nodes 2 t := Radix.mem_nodes.mpr (Or.inl hu)
      rw [nodes_of_zero hpage, Multiset.mem_singleton] at hmem
      rw [hmem, pte_of_zero hpage, decode_zero] at he
      cases he

section Invariant

variable {f : ℕ → Option (ℕ × ℕ)} {q perm k : ℕ}

theorem mapRange_congr {g : ℕ → Option (ℕ × ℕ)} (hfg : ∀ w, w < 67108864 → f w = g w) (v n q perm w : ℕ)
    (hw : w < 67108864) : mapRange f v n q perm w = mapRange g v n q perm w := by
  rw [mapRange, mapRange, hfg w hw]

theorem clearRange_congr {g : ℕ → Option (ℕ × ℕ)} (hfg : ∀ w, w < 67108864 → f w = g w) (v n w : ℕ)
    (hw : w < 67108864) : clearRange f v n w = clearRange g v n w := by
  rw [clearRange, clearRange, hfg w hw]

/-- The map of the tree is what has been mapped last. -/
theorem Built.entry (h : Built t m f) : m.Tree 2 t ∧ ∀ v, v < 67108864 → m.entry t v = f v := by
  induction h with
  | create hnd hrange hrun =>
    have h := (uvmcreate_ends hnd hrange).elim hrun
    exact ⟨h.1, fun v _ => h.2 v⟩
  | @map m m' f v n q perm _ hcall hrun ih =>
    obtain ⟨ht, hf⟩ := ih
    have hbelow := hcall.below
    have h : Mapped t (mapRange (m.entry t) v n q perm) m m' :=
      (mappages_range_ends ht hcall.pos hbelow hcall.phys hcall.flags fun w hlo hhi =>
        (hf w (by omega)).trans (hcall.unmapped w hlo hhi)).elim hrun
    exact ⟨ht.mapped h, fun w hw => (h.entry w hw).trans (mapRange_congr hf v n q perm w hw)⟩
  | @mapFailed m m₁ m' f v n q perm k _ hcall hk hrun hwalk ih =>
    obtain ⟨ht, hf⟩ := ih
    have hbelow := hcall.below
    have hphys := hcall.phys
    have h : Mapped t (mapRange (m.entry t) v k q perm) m m₁ :=
      (mappagesFrom_ends hcall.flags k ht (by omega) (by omega) fun w hlo hhi =>
        (hf w (by omega)).trans (hcall.unmapped w hlo (by omega))).elim hrun
    have hva : (v + k) * PGSIZE < MAXVA := page_lt_MAXVA (by omega)
    have hg := ((walk_grows hva (ht.mapped h)).elim hwalk).1
    refine ⟨(ht.mapped h).grown hg, fun w hw => ?_⟩
    rw [hg.mapped.entry w hw, h.entry w hw, mapRange_congr hf v k q perm w hw]
  | @unmap m m' f v n doFree _ hcall hrun ih =>
    obtain ⟨ht, hf⟩ := ih
    have h := (uvmunmap_ends ht hcall.below hcall.nodup hcall.range).elim hrun
    refine ⟨h.tree ht hcall.nodup hcall.range, fun w hw => ?_⟩
    rw [h.entry w hw, clearRange_congr hf v n w hw]
  | other _ hpage ht ih => exact ⟨ht, fun v hv => (entry_congr hpage v).trans (ih.2 v hv)⟩

end Invariant

end Xv6
