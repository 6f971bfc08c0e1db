import Mathlib.Algebra.BigOperators.Fin
import Mathlib.Algebra.Order.BigOperators.Group.Finset
import Mathlib.Algebra.Order.Group.Multiset
import Mathlib.Data.Multiset.UnionInter
import Mathlib.Tactic.Abel

/-!
# Radix trees in memory

A radix tree whose nodes are pages : `child t i` is the page that entry `i` of the page `t` leads to, if any. A
tree of `l` levels below its root has interior pages (`inner`) and, at the bottom, pages whose entries are
values and no longer lead anywhere (`outer`); `nodes` is all of them, with multiplicity. A key leads to the bottom page
that its digits select (`table`).

What a tree is depends on the entries of its interior pages only (`nodes_congr`, `table_congr`). When no page
occurs twice, keys that lead to the same bottom page have the same digits (`digit_eq_of_table`), and changing what one
entry of the root leads to changes the pages of that subtree and no others (`nodes_update`).
-/

namespace Xv6

namespace Radix

variable {K : ℕ} {κ : Type*} (child : ℕ → Fin K → Option ℕ)

/-- The interior pages of the tree of `l` levels at `t`. -/
def inner : ℕ → ℕ → Multiset ℕ
  | 0, _ => 0
  | l + 1, t => t ::ₘ ∑ i, (child t i).elim 0 (inner l)

/-- Its bottom pages. -/
def outer : ℕ → ℕ → Multiset ℕ
  | 0, t => {t}
  | l + 1, t => ∑ i, (child t i).elim 0 (outer l)

/-- Its pages. -/
def nodes (l t : ℕ) : Multiset ℕ :=
  inner child l t + outer child l t

/-- The bottom page that a key leads to; `digit l k` is the entry it selects in a page of level `l`. -/
def table (digit : ℕ → κ → Fin K) : ℕ → ℕ → κ → Option ℕ
  | 0, t, _ => some t
  | l + 1, t, k => (child t (digit (l + 1) k)).bind fun c => table digit l c k

variable {child} {child' : ℕ → Fin K → Option ℕ} {digit : ℕ → κ → Fin K} {l t u c : ℕ} {i j : Fin K} {k k' : κ}

theorem inner_succ (l t : ℕ) : inner child (l + 1) t = t ::ₘ ∑ i, (child t i).elim 0 (inner child l) := rfl

theorem outer_succ (l t : ℕ) : outer child (l + 1) t = ∑ i, (child t i).elim 0 (outer child l) := rfl

theorem inner_zero (t : ℕ) : inner child 0 t = 0 := rfl

theorem outer_zero (t : ℕ) : outer child 0 t = {t} := rfl

theorem nodes_eq (l t : ℕ) : nodes child l t = inner child l t + outer child l t := rfl

theorem mem_nodes {p : ℕ} : p ∈ nodes child l t ↔ p ∈ inner child l t ∨ p ∈ outer child l t :=
  Multiset.mem_add

@[simp] theorem nodes_zero (t : ℕ) : nodes child 0 t = {t} :=
  zero_add _

theorem nodes_succ (l t : ℕ) : nodes child (l + 1) t = t ::ₘ ∑ i, (child t i).elim 0 (nodes child l) := by
  rw [nodes, inner, outer, Multiset.cons_add, ← Finset.sum_add_distrib]
  congr 1
  refine Finset.sum_congr rfl fun i _ => ?_
  cases child t i with
  | none => exact add_zero _
  | some c => rfl

-- a sum over the entries of a page is never to be unfolded
attribute [irreducible] inner outer nodes

theorem root_mem (l t : ℕ) : t ∈ nodes child l t := by
  cases l with
  | zero => simp
  | succ l => simp [nodes_succ]

/-- The subtree at an entry is part of the tree. -/
theorem nodes_le (h : child t i = some c) : nodes child l c ≤ nodes child (l + 1) t := by
  rw [nodes_succ]
  refine le_trans ?_ (Multiset.le_cons_self _ _)
  have hle := Finset.single_le_sum (f := fun i => (child t i).elim 0 (nodes child l))
    (fun _ _ => Multiset.zero_le _) (Finset.mem_univ i)
  rwa [h] at hle

theorem root_mem_inner (l t : ℕ) : t ∈ inner child (l + 1) t := by
  rw [inner_succ]
  exact Multiset.mem_cons_self _ _

theorem inner_le (h : child t i = some c) : inner child l c ≤ inner child (l + 1) t := by
  rw [inner_succ]
  refine le_trans ?_ (Multiset.le_cons_self _ _)
  have hle := Finset.single_le_sum (f := fun i => (child t i).elim 0 (inner child l))
    (fun _ _ => Multiset.zero_le _) (Finset.mem_univ i)
  rwa [h] at hle

/-- The tree depends on the entries of its interior pages only. -/
theorem inner_outer_congr (h : ∀ u ∈ inner child l t, child' u = child u) :
    inner child' l t = inner child l t ∧ outer child' l t = outer child l t := by
  induction l generalizing t with
  | zero => simp only [inner_zero, outer_zero, and_self]
  | succ l ih =>
    have hroot : child' t = child t := h t (root_mem_inner l t)
    have hsub : ∀ i c, child t i = some c →
        inner child' l c = inner child l c ∧ outer child' l c = outer child l c := fun i c hc =>
      ih fun u hu => h u (Multiset.mem_of_le (inner_le hc) hu)
    rw [inner_succ, inner_succ, outer_succ, outer_succ, hroot]
    refine ⟨?_, Finset.sum_congr rfl fun i _ => ?_⟩
    · congr 1
      refine Finset.sum_congr rfl fun i _ => ?_
      cases hc : child t i with
      | none => rfl
      | some c => exact (hsub i c hc).1
    · cases hc : child t i with
      | none => rfl
      | some c => exact (hsub i c hc).2

theorem nodes_congr (h : ∀ u ∈ inner child l t, child' u = child u) :
    nodes child' l t = nodes child l t := by
  rw [nodes_eq, nodes_eq, (inner_outer_congr h).1, (inner_outer_congr h).2]

theorem table_congr (h : ∀ u ∈ inner child l t, child' u = child u) :
    table child' digit l t k = table child digit l t k := by
  induction l generalizing t with
  | zero => rfl
  | succ l ih =>
    rw [table, table, h t (root_mem_inner l t)]
    cases hc : child t (digit (l + 1) k) with
    | none => rfl
    | some c => exact ih fun u hu => h u (Multiset.mem_of_le (inner_le hc) hu)

theorem table_mem (h : table child digit l t k = some u) : u ∈ outer child l t := by
  induction l generalizing t with
  | zero =>
    obtain rfl : t = u := Option.some.inj h
    rw [outer_zero]
    exact Multiset.mem_singleton_self _
  | succ l ih =>
    obtain ⟨c, hc, hu⟩ := Option.bind_eq_some_iff.mp h
    rw [outer_succ, Multiset.mem_sum]
    refine ⟨digit (l + 1) k, Finset.mem_univ _, ?_⟩
    rw [hc]
    exact ih hu

/-- When no page occurs twice, different entries lead to different subtrees. -/
theorem disjoint_of_ne (hnd : (nodes child (l + 1) t).Nodup) {d : ℕ} (hij : i ≠ j) (hc : child t i = some c)
    (hd : child t j = some d) : Disjoint (nodes child l c) (nodes child l d) := by
  rw [nodes_succ, Multiset.nodup_cons] at hnd
  have hle : nodes child l c + nodes child l d ≤ ∑ i, (child t i).elim 0 (nodes child l) := by
    have hsub := Finset.sum_le_sum_of_subset (f := fun i => (child t i).elim 0 (nodes child l))
      (Finset.subset_univ {i, j})
    rwa [Finset.sum_pair hij, hc, hd] at hsub
  exact (Multiset.nodup_add.mp (Multiset.nodup_of_le hle hnd.2)).2.2

theorem nodup_of_child (hnd : (nodes child (l + 1) t).Nodup) (hc : child t i = some c) :
    (nodes child l c).Nodup :=
  Multiset.nodup_of_le (nodes_le hc) hnd

/-- Keys that lead to the same bottom page have the same digits. -/
theorem digit_eq_of_table (hnd : (nodes child l t).Nodup) (hk : table child digit l t k = some u)
    (hk' : table child digit l t k' = some u) : ∀ j, 0 < j → j ≤ l → digit j k = digit j k' := by
  induction l generalizing t with
  | zero => intro j hj hjl; omega
  | succ l ih =>
    obtain ⟨c, hc, hu⟩ := Option.bind_eq_some_iff.mp hk
    obtain ⟨d, hd, hu'⟩ := Option.bind_eq_some_iff.mp hk'
    have hdigit : digit (l + 1) k = digit (l + 1) k' := by
      by_contra hne
      have hmem : ∀ {c k}, table child digit l c k = some u → u ∈ nodes child l c := fun h =>
        mem_nodes.mpr (Or.inr (table_mem h))
      exact Multiset.disjoint_left.mp (disjoint_of_ne hnd hne hc hd) (hmem hu) (hmem hu')
    rw [← hdigit, hc] at hd
    obtain rfl := Option.some.inj hd
    intro j hj hjl
    obtain rfl | hjl := Nat.eq_or_lt_of_le hjl
    · exact hdigit
    · exact ih (nodup_of_child hnd hc) hu hu' j hj (Nat.lt_succ_iff.mp hjl)

/-- Only the digits of a key matter. -/
theorem table_eq_of_digit (h : ∀ j, 0 < j → j ≤ l → digit j k = digit j k') :
    table child digit l t k = table child digit l t k' := by
  induction l generalizing t with
  | zero => rfl
  | succ l ih =>
    rw [table, table, h (l + 1) (Nat.succ_pos l) le_rfl]
    exact Option.bind_congr fun c _ => ih fun j hj hjl => h j hj (Nat.le_succ_of_le hjl)

/-- The root is in none of its subtrees. -/
theorem root_not_mem (hnd : (nodes child (l + 1) t).Nodup) (hc : child t i = some c) : t ∉ nodes child l c := by
  rw [nodes_succ, Multiset.nodup_cons, Multiset.mem_sum] at hnd
  intro hmem
  refine hnd.1 ⟨i, Finset.mem_univ i, ?_⟩
  rw [hc]
  exact hmem

theorem mem_inner_succ : u ∈ inner child (l + 1) t ↔ u = t ∨ ∃ i c, child t i = some c ∧ u ∈ inner child l c := by
  rw [inner_succ, Multiset.mem_cons, Multiset.mem_sum]
  refine or_congr Iff.rfl (exists_congr fun i => ?_)
  cases child t i with
  | none => simp
  | some c => simp

theorem elim_congr {o : Option ℕ} (h : ∀ d, o = some d → nodes child' l d = nodes child l d) :
    o.elim 0 (nodes child' l) = o.elim 0 (nodes child l) := by
  cases o with
  | none => rfl
  | some d => exact h d rfl

/-- What one entry of the root leads to changes, and the other subtrees stay as they are. -/
theorem nodes_update (hroot : ∀ j, j ≠ i → child' t j = child t j)
    (h : ∀ j d, j ≠ i → child t j = some d → nodes child' l d = nodes child l d) :
    nodes child' (l + 1) t + (child t i).elim 0 (nodes child l) =
      nodes child (l + 1) t + (child' t i).elim 0 (nodes child' l) := by
  have hsplit : ∀ f : Fin K → Multiset ℕ, ∑ j, f j = f i + ∑ j ∈ Finset.univ.erase i, f j := fun f =>
    (Finset.add_sum_erase _ f (Finset.mem_univ i)).symm
  have hrest : ∑ j ∈ Finset.univ.erase i, (child' t j).elim 0 (nodes child' l) =
      ∑ j ∈ Finset.univ.erase i, (child t j).elim 0 (nodes child l) := by
    refine Finset.sum_congr rfl fun j hj => ?_
    have hji := Finset.ne_of_mem_erase hj
    rw [hroot j hji]
    exact elim_congr fun d hd => h j d hji hd
  rw [nodes_succ, nodes_succ, hsplit, hsplit fun j => (child t j).elim 0 (nodes child l), hrest]
  simp only [← Multiset.singleton_add]
  abel

end Radix

end Xv6
