import Mathlib.Data.List.Nodup
import Mathlib.Tactic.SplitIfs
import Xv6.Virtio

/-!
# Chains of descriptors

What the functions of the driver do to the descriptors. An allocation gives three free descriptors or leaves
`free[]` as it was, and does not panic either way (`alloc3Desc_some`, `alloc3Desc_none`,
`alloc3Desc_ne_error`). A formatted chain is linked (`VirtioDisk.Linked`) : from its head the device
finds the status of the request (`Linked.lastAddr`), and `free_chain` frees its three descriptors and no other
(`Linked.freeChain`).
-/

namespace Xv6

namespace VirtioDisk

variable {B : Type} {d d' : VirtioDisk B} {x : Idx} {i : ℕ} {w : Bool}

/-- The disk with other descriptors. -/
def withDesc (d : VirtioDisk B) (desc : ℕ → VirtqDesc B) (free : ℕ → Bool) : VirtioDisk B :=
  { d with desc := desc, free := free }

@[simp] theorem withDesc_desc (desc : ℕ → VirtqDesc B) (free : ℕ → Bool) :
    (d.withDesc desc free).desc = desc := rfl

@[simp] theorem withDesc_free (desc : ℕ → VirtqDesc B) (free : ℕ → Bool) :
    (d.withDesc desc free).free = free := rfl

@[simp] theorem withDesc_withDesc (desc desc' : ℕ → VirtqDesc B) (free free' : ℕ → Bool) :
    (d.withDesc desc free).withDesc desc' free' = d.withDesc desc' free' := rfl

theorem allocDesc_eq_some (h : d.allocDesc = some (i, d')) :
    i < NUM ∧ d.free i = true ∧ d' = d.withDesc d.desc (Function.update d.free i false) := by
  unfold allocDesc at h
  obtain ⟨j, hj, heq⟩ := Option.map_eq_some_iff.mp h
  rw [Prod.mk.injEq] at heq
  obtain ⟨rfl, rfl⟩ := heq
  have hfree := List.find?_some hj
  have hmem := List.mem_range.mp (List.mem_of_find?_eq_some hj)
  exact ⟨hmem, hfree, rfl⟩

theorem freeDesc_eq (hi : i < NUM) (hfree : d.free i = false) :
    d.freeDesc i = .ok (d.withDesc (Function.update d.desc i ⟨.null, 0, 0, 0⟩)
      (Function.update d.free i true)) := by
  rw [freeDesc, if_neg (by omega), hfree, if_neg (by simp)]
  rfl

/-- `alloc3_desc` gives three free descriptors, or leaves `free[]` and the descriptors in use as they
were. -/
theorem alloc3Desc_cases (d : VirtioDisk B) :
    (∃ x : Idx, x.toList.Nodup ∧ (∀ i ∈ x.toList, i < NUM ∧ d.free i = true) ∧ d.alloc3Desc =
      .ok (some x, d.withDesc d.desc (fun i => d.free i && decide (i ∉ x.toList)), false)) ∨
    ∃ desc w, d.alloc3Desc = .ok (none, d.withDesc desc d.free, w) ∧
      ∀ i, d.free i = false → desc i = d.desc i := by
  unfold alloc3Desc
  cases h0 : d.allocDesc with
  | none => exact Or.inr ⟨d.desc, false, rfl, fun _ _ => rfl⟩
  | some y0 =>
    obtain ⟨i0, d0⟩ := y0
    obtain ⟨hlt0, hfree0, rfl⟩ := allocDesc_eq_some h0
    have hbusy : ∀ i, d.free i = false → i ≠ i0 := by
      rintro i hi rfl
      rw [hfree0] at hi
      cases hi
    dsimp only
    cases h1 : (d.withDesc d.desc (Function.update d.free i0 false)).allocDesc with
    | none =>
      refine Or.inr ⟨Function.update d.desc i0 ⟨.null, 0, 0, 0⟩, true, ?_, fun i hi =>
        Function.update_of_ne (hbusy i hi) ..⟩
      dsimp only
      rw [freeDesc_eq hlt0 (by simp)]
      simp only [withDesc_desc, withDesc_free, withDesc_withDesc, Function.update_idem]
      rw [← hfree0, Function.update_eq_self]
      rfl
    | some y1 =>
      obtain ⟨i1, d1⟩ := y1
      obtain ⟨hlt1, hfree1, rfl⟩ := allocDesc_eq_some h1
      simp only [withDesc_desc, withDesc_free, withDesc_withDesc] at hfree1 ⊢
      have hne : i1 ≠ i0 := by
        rintro rfl
        simp at hfree1
      rw [Function.update_of_ne hne] at hfree1
      have hbusy1 : ∀ i, d.free i = false → i ≠ i1 := by
        rintro i hi rfl
        rw [hfree1] at hi
        cases hi
      cases h2 : (d.withDesc d.desc
          (Function.update (Function.update d.free i0 false) i1 false)).allocDesc with
      | none =>
        refine Or.inr ⟨Function.update (Function.update d.desc i0 ⟨.null, 0, 0, 0⟩) i1 ⟨.null, 0, 0, 0⟩,
          true, ?_, fun i hi => ?_⟩
        · have hback : Function.update (Function.update (Function.update (Function.update d.free i0 false)
              i1 false) i0 true) i1 true = d.free := by
            funext i
            by_cases hi1 : i = i1
            · simp [hi1, hfree1]
            · by_cases hi0 : i = i0
              · simp [hi0, hne.symm, hfree0]
              · simp [hi0, hi1]
          dsimp only
          rw [freeDesc_eq hlt0 (by simp [hne.symm])]
          simp only [withDesc_desc, withDesc_free, withDesc_withDesc, bind, Except.bind]
          rw [freeDesc_eq hlt1 (by simp [hne])]
          simp only [withDesc_desc, withDesc_free, withDesc_withDesc, hback]
          rfl
        · rw [Function.update_of_ne (hbusy1 i hi), Function.update_of_ne (hbusy i hi)]
      | some y2 =>
        obtain ⟨i2, d2⟩ := y2
        obtain ⟨hlt2, hfree2, rfl⟩ := allocDesc_eq_some h2
        simp only [withDesc_desc, withDesc_free, withDesc_withDesc] at hfree2 ⊢
        have hne1 : i2 ≠ i1 := by
          rintro rfl
          simp at hfree2
        have hne0 : i2 ≠ i0 := by
          rintro rfl
          simp [hne1] at hfree2
        rw [Function.update_of_ne hne1, Function.update_of_ne hne0] at hfree2
        refine Or.inl ⟨⟨i0, i1, i2⟩, ?_, ?_, ?_⟩
        · simp [Idx.toList, hne.symm, hne0.symm, hne1.symm]
        · simp [Idx.toList, hlt0, hlt1, hlt2, hfree0, hfree1, hfree2]
        · have htaken : Function.update (Function.update (Function.update d.free i0 false) i1 false) i2 false =
              fun i => d.free i && decide (i ∉ (⟨i0, i1, i2⟩ : Idx).toList) := by
            funext i
            by_cases hi : i ∈ (⟨i0, i1, i2⟩ : Idx).toList
            · simp only [Idx.toList, List.mem_cons, List.not_mem_nil, or_false] at hi
              obtain rfl | rfl | rfl := hi
              · simp [Idx.toList, hne.symm, hne0.symm]
              · simp [Idx.toList, hne1.symm]
              · simp [Idx.toList]
            · simp only [Idx.toList, List.mem_cons, List.not_mem_nil, or_false, not_or] at hi
              simp [Idx.toList, hi.1, hi.2.1, hi.2.2]
          rw [htaken]
          rfl

/-- A failed allocation leaves `free[]` as it was. -/
theorem alloc3Desc_none (h : d.alloc3Desc = .ok (none, d', w)) :
    d'.free = d.free ∧ d' = d.withDesc d'.desc d.free ∧ ∀ i, d.free i = false → d'.desc i = d.desc i := by
  obtain ⟨x, -, -, hx⟩ | ⟨desc, w', hd, hdesc⟩ := d.alloc3Desc_cases
  · rw [hx] at h
    cases h
  · rw [hd] at h
    cases h
    exact ⟨rfl, rfl, hdesc⟩

theorem alloc3Desc_some (h : d.alloc3Desc = .ok (some x, d', w)) :
    x.toList.Nodup ∧ (∀ i ∈ x.toList, i < NUM ∧ d.free i = true) ∧
      d' = d.withDesc d.desc (fun i => d.free i && decide (i ∉ x.toList)) := by
  obtain ⟨y, hnd, hfree, hy⟩ | ⟨desc, w', hd, -⟩ := d.alloc3Desc_cases
  · rw [hy] at h
    cases h
    exact ⟨hnd, hfree, rfl⟩
  · rw [hd] at h
    cases h

theorem alloc3Desc_ne_error (e : DiskPanic) : d.alloc3Desc ≠ .error e := by
  obtain ⟨y, -, -, hy⟩ | ⟨desc, w', hd, -⟩ := d.alloc3Desc_cases
  · rw [hy]
    exact fun h => by cases h
  · rw [hd]
    exact fun h => by cases h

/-! ## Linked chains -/

/-- The descriptors of `x` are a chain, and its last one has the address of the status of its head. -/
structure Linked (d : VirtioDisk B) (x : Idx) : Prop where
  flags0 : (d.desc x.i0).flags &&& VRING_DESC_F_NEXT ≠ 0
  next0 : (d.desc x.i0).next = x.i1
  flags1 : (d.desc x.i1).flags &&& VRING_DESC_F_NEXT ≠ 0
  next1 : (d.desc x.i1).next = x.i2
  flags2 : (d.desc x.i2).flags &&& VRING_DESC_F_NEXT = 0
  addr2 : (d.desc x.i2).addr = .status x.i0

theorem Linked.congr (h : d.Linked x) (hdesc : ∀ i ∈ x.toList, d'.desc i = d.desc i) : d'.Linked x := by
  have h0 := hdesc x.i0 (by simp [Idx.toList])
  have h1 := hdesc x.i1 (by simp [Idx.toList])
  have h2 := hdesc x.i2 (by simp [Idx.toList])
  constructor
  · rw [h0]; exact h.flags0
  · rw [h0]; exact h.next0
  · rw [h1]; exact h.flags1
  · rw [h1]; exact h.next1
  · rw [h2]; exact h.flags2
  · rw [h2]; exact h.addr2

theorem format_linked (d : VirtioDisk B) (b : B) (sector : ℕ) (write : Bool) (hnd : x.toList.Nodup) :
    (d.format b sector write x).Linked x := by
  simp only [Idx.toList, List.nodup_cons, List.mem_cons, List.not_mem_nil, or_false, not_or] at hnd
  obtain ⟨⟨h01, h02⟩, h12, -⟩ := hnd
  constructor
  · simp [format, h01, h02]
  · simp [format, h01, h02]
  · cases write <;> simp [format, h12]
  · simp [format, h12]
  · simp [format]
  · simp [format]

theorem Linked.lastAddr (h : d.Linked x) : d.lastAddr NUM x.i0 = .status x.i0 := by
  simp only [VirtioDisk.lastAddr, h.flags0, h.next0, h.flags1, h.next1, h.flags2, h.addr2, ne_eq,
    not_false_eq_true, if_true, not_true_eq_false, if_false]

theorem freeChain_next (fuel : ℕ) (hi : i < NUM) (hfree : d.free i = false)
    (hflag : (d.desc i).flags &&& VRING_DESC_F_NEXT ≠ 0) : d.freeChain (fuel + 1) i =
      (d.withDesc (Function.update d.desc i ⟨.null, 0, 0, 0⟩) (Function.update d.free i true)).freeChain
        fuel (d.desc i).next := by
  simp only [VirtioDisk.freeChain, freeDesc_eq hi hfree, if_pos hflag]

theorem freeChain_last (fuel : ℕ) (hi : i < NUM) (hfree : d.free i = false)
    (hflag : (d.desc i).flags &&& VRING_DESC_F_NEXT = 0) : d.freeChain (fuel + 1) i =
      .ok (d.withDesc (Function.update d.desc i ⟨.null, 0, 0, 0⟩) (Function.update d.free i true)) := by
  simp only [VirtioDisk.freeChain, freeDesc_eq hi hfree, hflag, ne_eq, not_true_eq_false, if_false]

/-- `free_chain` frees the descriptors of the chain. -/
theorem Linked.freeChain (h : d.Linked x) (hnd : x.toList.Nodup)
    (hbusy : ∀ i ∈ x.toList, i < NUM ∧ d.free i = false) :
    ∃ desc, d.freeChain NUM x.i0 = .ok (d.withDesc desc (fun i => d.free i || decide (i ∈ x.toList))) ∧
      ∀ i ∉ x.toList, desc i = d.desc i := by
  simp only [Idx.toList, List.nodup_cons, List.mem_cons, List.not_mem_nil, or_false, not_or] at hnd
  obtain ⟨⟨h01, h02⟩, h12, -⟩ := hnd
  obtain ⟨hlt0, hfree0⟩ := hbusy x.i0 (by simp [Idx.toList])
  obtain ⟨hlt1, hfree1⟩ := hbusy x.i1 (by simp [Idx.toList])
  obtain ⟨hlt2, hfree2⟩ := hbusy x.i2 (by simp [Idx.toList])
  have hfreed : Function.update (Function.update (Function.update d.free x.i0 true) x.i1 true) x.i2 true =
      fun i => d.free i || decide (i ∈ x.toList) := by
    funext i
    by_cases hi : i ∈ x.toList
    · simp only [hi, decide_true, Bool.or_true]
      simp only [Idx.toList, List.mem_cons, List.not_mem_nil, or_false] at hi
      obtain rfl | rfl | rfl := hi
      · simp [h01, h02]
      · simp [h12]
      · simp
    · simp only [hi, decide_false, Bool.or_false]
      simp only [Idx.toList, List.mem_cons, List.not_mem_nil, or_false, not_or] at hi
      simp [hi.1, hi.2.1, hi.2.2]
  refine ⟨Function.update (Function.update (Function.update d.desc x.i0 ⟨.null, 0, 0, 0⟩)
    x.i1 ⟨.null, 0, 0, 0⟩) x.i2 ⟨.null, 0, 0, 0⟩, ?_, fun i hi => ?_⟩
  · rw [freeChain_next 7 hlt0 hfree0 h.flags0, h.next0,
      freeChain_next 6 hlt1 (by simp [Ne.symm h01, hfree1]) (by simpa [Ne.symm h01] using h.flags1)]
    simp only [withDesc_desc, withDesc_free, withDesc_withDesc, Function.update_of_ne (Ne.symm h01), h.next1]
    rw [freeChain_last 5 hlt2 (by simp [Ne.symm h02, Ne.symm h12, hfree2])
      (by simpa [Ne.symm h02, Ne.symm h12] using h.flags2)]
    simp only [withDesc_desc, withDesc_free, withDesc_withDesc, hfreed]
  · simp only [Idx.toList, List.mem_cons, List.not_mem_nil, or_false, not_or] at hi
    simp [hi.1, hi.2.1, hi.2.2]

end VirtioDisk

end Xv6
