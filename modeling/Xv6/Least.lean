import Mathlib.Data.List.MinMax

/-!
# The least element a scan finds

A scan of a list keeps one element, the best so far, and replaces it only by one that is strictly
better (`keepLess`). What it ends with is the first of the elements it may take that have the
least key : `leastBy`, the `List.argmin` of those elements. A proof about such a loop needs how one
more element changes it (`leastBy_concat`, where the list is what has been visited), and what is
known of the result (`leastBy_eq_none`, `leastBy_spec`). In a sorted list the first of the least is
the smallest of them (`leastBy_of_sorted`).
-/

namespace Xv6

variable {α β : Type*} [LinearOrder β] {P : α → Bool} {f : α → β} {l : List α} {a : α}

variable (f) in
/-- One step of the scan : `a` takes the place of the element that was kept when it is less. -/
def keepLess : Option α → α → Option α
  | none, a => some a
  | some b, a => if f a < f b then some a else some b

variable (P f) in
/-- The first element of the list with the least `f`, among those that satisfy `P`. -/
def leastBy (l : List α) : Option α :=
  (l.filter P).foldl (keepLess f) none

theorem leastBy_eq_argmin : leastBy P f l = (l.filter P).argmin f := by
  have hstep : keepLess f = List.argAux fun b c => f b < f c := by
    funext o a
    cases o <;> rfl
  rw [leastBy, hstep, List.argmin]

/-- One more element at the end of the list is one more step of the scan. -/
theorem leastBy_concat : leastBy P f (l ++ [a]) =
    if P a then keepLess f (leastBy P f l) a else leastBy P f l := by
  unfold leastBy
  by_cases ha : P a = true
  · rw [if_pos ha, List.filter_append, List.filter_cons_of_pos ha, List.filter_nil,
      List.foldl_append, List.foldl_cons, List.foldl_nil]
  · rw [if_neg ha, List.filter_append, List.filter_cons_of_neg ha, List.filter_nil, List.append_nil]

theorem leastBy_eq_none : leastBy P f l = none ↔ ∀ b ∈ l, P b = false := by
  rw [leastBy_eq_argmin, List.argmin_eq_none, List.filter_eq_nil_iff]
  simp only [Bool.not_eq_true]

theorem leastBy_spec (h : leastBy P f l = some a) :
    P a = true ∧ ∀ b ∈ l, P b = true → f a ≤ f b := by
  rw [leastBy_eq_argmin] at h
  refine ⟨(List.mem_filter.mp (List.argmin_mem h)).2, fun b hb hP => ?_⟩
  exact List.le_of_mem_argmin (List.mem_filter.mpr ⟨hb, hP⟩) h

theorem idxOf_le_of_sorted [LinearOrder α] (hl : l.Pairwise (· < ·)) {b : α} (ha : a ∈ l)
    (hb : b ∈ l) (hab : a ≤ b) : l.idxOf a ≤ l.idxOf b := by
  by_contra hlt
  have := List.pairwise_iff_getElem.mp hl (l.idxOf b) (l.idxOf a) (List.idxOf_lt_length_of_mem hb)
    (List.idxOf_lt_length_of_mem ha) (Nat.not_le.mp hlt)
  rw [List.getElem_idxOf, List.getElem_idxOf] at this
  exact not_le.mpr this hab

theorem leastBy_of_sorted [LinearOrder α] (hl : l.Pairwise (· < ·)) (ha : a ∈ l) (hP : P a = true)
    (hmin : ∀ b ∈ l, P b = true → f a < f b ∨ (f a = f b ∧ a ≤ b)) : leastBy P f l = some a := by
  have hmem : a ∈ l.filter P := List.mem_filter.mpr ⟨ha, hP⟩
  rw [leastBy_eq_argmin]
  refine List.argmin_eq_some_iff.mpr ⟨hmem, fun b hb => ?_, fun b hb hle => ?_⟩
  · obtain ⟨hb, hPb⟩ := List.mem_filter.mp hb
    obtain hlt | ⟨heq, -⟩ := hmin b hb hPb
    · exact hlt.le
    · exact heq.le
  · refine idxOf_le_of_sorted (hl.filter P) hmem hb ?_
    obtain ⟨hb, hPb⟩ := List.mem_filter.mp hb
    obtain hlt | ⟨-, hab⟩ := hmin b hb hPb
    · exact absurd hle (not_le.mpr hlt)
    · exact hab

end Xv6
