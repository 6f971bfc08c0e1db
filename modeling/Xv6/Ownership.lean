import Mathlib.Data.Set.Function

/-!
# Numbered blocks and the slots that hold them

Blocks are numbers. Each is free or used, and a slot holds the number of a block or 0. The blocks from `lo`
up to `hi` are handed out : one that is in a slot is used and is in no other slot, and those below `lo` are never free
(`Owned`). Taking a free block into a slot keeps this (`Owned.fill`).
-/

namespace Xv6

variable {ι : Type*}

structure Owned (lo hi : ℕ) (free : ℕ → Bool) (slot : ι → ℕ) : Prop where
  low : ∀ b, b < lo → b < hi → free b = false
  range : ∀ k, slot k ≠ 0 → lo ≤ slot k ∧ slot k < hi
  used : ∀ k, slot k ≠ 0 → free (slot k) = false
  inj : ∀ k l, slot k = slot l → slot k ≠ 0 → k = l

namespace Owned

variable {lo hi b : ℕ} {free free' : ℕ → Bool} {slot slot' : ι → ℕ} {k l : ι}

theorem le_of_free (h : Owned lo hi free slot) (hb : free b = true) (hlt : b < hi) : lo ≤ b := by
  by_contra hlo
  rw [h.low b (Nat.lt_of_not_le hlo) hlt] at hb
  cases hb

theorem ne_of_free (h : Owned lo hi free slot) (hb : free b = true) (hb0 : b ≠ 0) (k : ι) : slot k ≠ b := by
  intro hk
  have hused := h.used k (hk ▸ hb0)
  rw [hk, hb] at hused
  cases hused

/-- A free block is taken into a slot. -/
theorem fill (h : Owned lo hi free slot) (hlo : 0 < lo) (hb : free b = true) (hlt : b < hi)
    (hfree : ∀ c, c < hi → free' c = (free c && c != b)) (hself : slot' k = b)
    (hslot : ∀ l, l ≠ k → slot' l = slot l) : Owned lo hi free' slot' := by
  have hle := h.le_of_free hb hlt
  have hb0 : b ≠ 0 := Nat.ne_of_gt (Nat.lt_of_lt_of_le hlo hle)
  have hother : ∀ l, l ≠ k → slot' l ≠ b := fun l hl => by
    rw [hslot l hl]
    exact h.ne_of_free hb hb0 l
  refine ⟨fun c hc hlt => ?_, fun l hl => ?_, fun l hl => ?_, fun l l' heq hl => ?_⟩
  · rw [hfree c hlt, h.low c hc hlt, Bool.false_and]
  · by_cases hlk : l = k
    · rw [hlk, hself]
      exact ⟨hle, hlt⟩
    · rw [hslot l hlk] at hl ⊢
      exact h.range l hl
  · by_cases hlk : l = k
    · rw [hlk, hself, hfree b hlt, bne_self_eq_false, Bool.and_false]
    · rw [hslot l hlk] at hl ⊢
      rw [hfree _ (h.range l hl).2, h.used l hl, Bool.false_and]
  · by_cases hlk : l = k
    · by_contra hne
      rw [hlk, hself] at heq
      exact hother l' (fun h => hne (hlk.trans h.symm)) heq.symm
    · have hlk' : l' ≠ k := fun h => hother l hlk (by rw [heq, h, hself])
      rw [hslot l hlk] at heq hl
      rw [hslot l' hlk'] at heq
      exact h.inj l l' heq hl

theorem congr (h : Owned lo hi free slot) (hfree : ∀ c, c < hi → free' c = free c) (hslot : ∀ l, slot' l = slot l) :
    Owned lo hi free' slot' := by
  obtain rfl : slot' = slot := funext hslot
  refine ⟨fun c hc hlt => (hfree c hlt).trans (h.low c hc hlt), h.range, fun l hl => ?_, h.inj⟩
  rw [hfree _ (h.range l hl).2, h.used l hl]

end Owned

end Xv6
