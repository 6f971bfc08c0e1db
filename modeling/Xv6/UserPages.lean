import Xv6.PageMap

/-!
# Giving pages to an address space

`uvmalloc`, `uvmcopy` and `vmfault` all do the same for one page : take it from the free list, fill it, and map it.
`Phys.Given` says what a loop of such steps has done, whichever of the pages it has skipped. When a step fails for want
of memory, the loops call `uvmunmap` for the pages before, and everything is as it was (`Phys.Given.undo`), but that
pages of the free list may have become pages of the page table.
-/

set_option linter.unusedSectionVars false

namespace Xv6

namespace Phys

variable {m m' m₁ : Phys} {t v w n k q f : ℕ}

theorem pagesIn_add (m : Phys) (t v n k : ℕ) : m.pagesIn t v (n + k) = m.pagesIn t v n + m.pagesIn t (v + n) k := by
  induction n generalizing v with
  | zero => rw [pagesIn_zero, zero_add, Nat.add_zero, zero_add]
  | succ n ih =>
    rw [Nat.add_right_comm n 1 k, pagesIn_succ, ih, pagesIn_succ, Nat.add_assoc v 1 n, Nat.add_comm 1 n]
    exact (add_assoc _ _ _).symm

theorem pagesIn_one_of_none (h : m.entry t v = none) : m.pagesIn t v 1 = 0 := by
  rw [pagesIn_succ, h, pagesIn_zero]
  rfl

theorem pagesIn_one (h : m.entry t v = some (q, f)) : m.pagesIn t v 1 = {q} := by
  rw [pagesIn_succ, h, pagesIn_zero]
  rfl

/-- Some of the `n` entries from `v` on have got a page of the free list. -/
structure Given (t v n : ℕ) (m m' : Phys) : Prop where
  total : m'.nodes 2 t + m'.pagesIn t v n + m'.freelist = m.nodes 2 t + m.freelist
  frame : ∀ p, p ∉ m.nodes 2 t + m.freelist → m'.page p = m.page p
  entry : ∀ w, w < 67108864 → ¬ (v ≤ w ∧ w < v + n) → m'.entry t w = m.entry t w
  plain : m'.Plain 2 t
  layout : m'.layout = m.layout
  refused : m.refused = true → m'.refused = true

namespace Given

theorem tree_le (h : Given t v n m m') : m'.nodes 2 t + m'.freelist ≤ m.nodes 2 t + m.freelist := by
  rw [← h.total, add_right_comm]
  exact Multiset.le_add_right _ _

theorem tree (ht : m.Tree 2 t) (h : Given t v n m m') : m'.Tree 2 t where
  nodup := Multiset.nodup_of_le h.tree_le ht.nodup
  range p hp := by
    rw [h.layout]
    exact ht.range p (Multiset.mem_of_le h.tree_le hp)
  plain := h.plain

/-- The pages that have been given are no longer free, and none is given twice. -/
theorem pages (ht : m.Tree 2 t) (h : Given t v n m m') :
    (m'.nodes 2 t + m'.pagesIn t v n + m'.freelist).Nodup ∧ ∀ p ∈ m'.pagesIn t v n,
      p ∈ m.nodes 2 t + m.freelist ∧ p ∉ m'.nodes 2 t + m'.freelist := by
  have hnd : (m'.nodes 2 t + m'.pagesIn t v n + m'.freelist).Nodup := by
    rw [h.total]
    exact ht.nodup
  refine ⟨hnd, fun p hp => ⟨?_, ?_⟩⟩
  · rw [← h.total, add_right_comm]
    exact Multiset.mem_add.mpr (Or.inr hp)
  · rw [add_right_comm, add_comm] at hnd
    exact Multiset.disjoint_left.mp (Multiset.nodup_add.mp hnd).2.2 hp

theorem of_mapped (h : Mapped t (m.entry t) m m') : Given t v 0 m m' where
  total := by rw [pagesIn_zero, add_zero, h.total]
  frame := h.frame
  entry w hw _ := h.entry w hw
  plain := h.plain
  layout := h.layout
  refused := h.refused

theorem refl (ht : m.Tree 2 t) : Given t v 0 m m :=
  of_mapped (Grown.refl ht.plain).mapped

/-- A page is left out. -/
theorem skip (ht : m.Tree 2 t) (hnone : m.entry t v = none) : Given t v 1 m m where
  total := by rw [pagesIn_one_of_none hnone, add_zero]
  frame _ _ := rfl
  entry _ _ _ := rfl
  plain := ht.plain
  layout := rfl
  refused := id

/-- A page has been taken and mapped. -/
theorem of_taken {perm : ℕ} (ht : m.Tree 2 t) (hv : v < 67108864) (h₁ : Taken q m m₁)
    (h₂ : Mapped t (fun w => if w = v then some (q, perm) else m₁.entry t w) m₁ m') : Given t v 1 m m' where
  total := by
    have hentry : m'.entry t v = some (q, perm) := by rw [h₂.entry v hv, if_pos rfl]
    rw [pagesIn_one hentry, h₁.tree_total ht, add_right_comm, h₂.total, add_comm, Multiset.singleton_add]
  frame p hp := by
    rw [h₁.tree_total ht, Multiset.mem_cons, not_or] at hp
    rw [h₂.frame p hp.2, h₁.frame p hp.1]
  entry w hw hne := by
    rw [h₂.entry w hw, if_neg (by omega), h₁.entry (ht.not_mem_nodes_of_taken h₁)]
  plain := h₂.plain
  layout := h₂.layout.trans h₁.layout
  refused h := h₂.refused (h₁.refused.trans h)

section Trans

variable (hbound : v + n ≤ 67108864) (h₁ : Given t v n m m₁) (h₂ : Given t (v + n) k m₁ m')
include hbound h₁ h₂

theorem entry_of_mem (hw : w < v + n) : m'.entry t w = m₁.entry t w :=
  h₂.entry w (by omega) (by omega)

theorem trans : Given t v (n + k) m m' where
  total := by
    have hpages : m'.pagesIn t v n = m₁.pagesIn t v n :=
      pagesIn_congr fun w _ hw => entry_of_mem hbound h₁ h₂ hw
    rw [← h₁.total, pagesIn_add, hpages, add_comm (m₁.pagesIn t v n), ← add_assoc, add_right_comm _ (m₁.pagesIn t v n),
      h₂.total, add_right_comm]
  frame p hp := by
    rw [h₂.frame p fun hmem => hp (Multiset.mem_of_le h₁.tree_le hmem), h₁.frame p hp]
  entry w hw hne := by
    rw [h₂.entry w hw (by omega), h₁.entry w hw (by omega)]
  plain := h₂.plain
  layout := h₂.layout.trans h₁.layout
  refused h := h₂.refused (h₁.refused h)

/-- What has been given before keeps its contents. -/
theorem page_of_mem (ht : m.Tree 2 t) (hlo : v ≤ w) (hw : w < v + n) (hentry : m₁.entry t w = some (q, f)) :
    m'.page q = m₁.page q :=
  h₂.frame q ((h₁.pages ht).2 q (mem_pagesIn.mpr ⟨w, hlo, hw, f, hentry⟩)).2

end Trans

end Given

end Phys

open Phys

variable {m : Phys} {t v n : ℕ}

end Xv6
