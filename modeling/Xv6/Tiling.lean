import Mathlib.Data.List.Perm.Basic
import Mathlib.Tactic.Common

/-!
# Intervals that tile a set of numbers

`Tiles ts S` says that the intervals `[t.1, t.2)` of a list are not empty, that no two of them meet, and that together
they are the set `S`. Cutting an interval in two or putting two together keeps that (`Tiles.cut`, `Tiles.paste`), and so
does any change of the order.
-/

namespace Xv6

/-- Two intervals that do not meet. -/
def Apart (t u : ℕ × ℕ) : Prop :=
  t.2 ≤ u.1 ∨ u.2 ≤ t.1

theorem Apart.symm {t u : ℕ × ℕ} (h : Apart t u) : Apart u t :=
  Or.symm h

/-- Every number of `S` is in one interval of the list, and no other number is. -/
structure Tiles (ts : List (ℕ × ℕ)) (S : ℕ → Prop) : Prop where
  nonempty : ∀ t ∈ ts, t.1 < t.2
  apart : ts.Pairwise Apart
  mem : ∀ x, S x ↔ ∃ t ∈ ts, t.1 ≤ x ∧ x < t.2

namespace Tiles

variable {ts us : List (ℕ × ℕ)} {S : ℕ → Prop} {a b c : ℕ}

theorem nil : Tiles [] fun _ => False where
  nonempty _ h := by cases h
  apart := .nil
  mem x := by simp

theorem perm (h : Tiles ts S) (hp : ts.Perm us) : Tiles us S where
  nonempty t ht := h.nonempty t (hp.mem_iff.mpr ht)
  apart := (hp.pairwise_iff fun h => Apart.symm h).mp h.apart
  mem x := (h.mem x).trans (exists_congr fun _ => and_congr_left fun _ => hp.mem_iff)

theorem of_iff {S' : ℕ → Prop} (h : Tiles ts S) (hS : ∀ x, S x ↔ S' x) : Tiles ts S' where
  nonempty := h.nonempty
  apart := h.apart
  mem x := (hS x).symm.trans (h.mem x)

/-- An interval is cut in two. -/
theorem cut (h : Tiles ((a, c) :: ts) S) (hab : a < b) (hbc : b < c) : Tiles ((a, b) :: (b, c) :: ts) S where
  nonempty t ht := by
    obtain rfl | ht := List.mem_cons.mp ht
    · exact hab
    obtain rfl | ht := List.mem_cons.mp ht
    · exact hbc
    · exact h.nonempty t (List.mem_cons_of_mem _ ht)
  apart := by
    obtain ⟨hac, hts⟩ := List.pairwise_cons.mp h.apart
    refine List.pairwise_cons.mpr ⟨fun u hu => ?_, List.pairwise_cons.mpr ⟨fun u hu => ?_, hts⟩⟩
    · obtain rfl | hu := List.mem_cons.mp hu
      · exact Or.inl (Nat.le_refl b)
      · exact (hac u hu).imp (fun h => Nat.le_trans (Nat.le_of_lt hbc) h) id
    · exact (hac u hu).imp id fun h => Nat.le_trans h (Nat.le_of_lt hab)
  mem x := by
    rw [h.mem x]
    simp only [List.mem_cons, exists_eq_or_imp]
    rw [← or_assoc]
    exact or_congr_left (by omega)

/-- Two intervals are put together. -/
theorem paste (h : Tiles ((a, b) :: (b, c) :: ts) S) : Tiles ((a, c) :: ts) S := by
  have hab : a < b := h.nonempty (a, b) List.mem_cons_self
  have hbc : b < c := h.nonempty (b, c) (List.mem_cons_of_mem _ List.mem_cons_self)
  obtain ⟨hfirst, hrest⟩ := List.pairwise_cons.mp h.apart
  obtain ⟨hsecond, hts⟩ := List.pairwise_cons.mp hrest
  have hne : ∀ u ∈ ts, u.1 < u.2 := fun u hu => h.nonempty u (List.mem_cons_of_mem _ (List.mem_cons_of_mem _ hu))
  refine ⟨fun t ht => ?_, List.pairwise_cons.mpr ⟨fun u hu => ?_, hts⟩, fun x => ?_⟩
  · obtain rfl | ht := List.mem_cons.mp ht
    · exact Nat.lt_trans hab hbc
    · exact hne t ht
  · have h₁ : b ≤ u.1 ∨ u.2 ≤ a := hfirst u (List.mem_cons_of_mem _ hu)
    have h₂ : c ≤ u.1 ∨ u.2 ≤ b := hsecond u hu
    have h₃ := hne u hu
    change c ≤ u.1 ∨ u.2 ≤ a
    omega
  · rw [h.mem x]
    simp only [List.mem_cons, exists_eq_or_imp]
    rw [← or_assoc]
    exact or_congr_left (by omega)

/-- An interval beyond all others. -/
theorem cons (h : Tiles ts S) (hS : ∀ x, S x → x < a) (hab : a < b) :
    Tiles ((a, b) :: ts) fun x => S x ∨ a ≤ x ∧ x < b where
  nonempty t ht := by
    obtain rfl | ht := List.mem_cons.mp ht
    · exact hab
    · exact h.nonempty t ht
  apart := List.pairwise_cons.mpr ⟨fun u hu => by
    have hne := h.nonempty u hu
    have hlt := hS (u.2 - 1) ((h.mem _).mpr ⟨u, hu, by omega, by omega⟩)
    exact Or.inr (show u.2 ≤ a by omega), h.apart⟩
  mem x := by
    rw [h.mem x]
    simp only [List.mem_cons, exists_eq_or_imp]
    exact or_comm

end Tiles

end Xv6
