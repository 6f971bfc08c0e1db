import Mathlib.Data.List.Basic
import Mathlib.Data.List.Nodup
import Mathlib.Logic.Function.Basic
import Mathlib.Tactic.SplitIfs

/-!
# Doubly linked lists

Lists whose elements are linked in both directions, in a cycle through a head. A node is an element or the
head, `none`. `Links.Cycle k l` says that the links `k` go from the head through the elements of `l` and back, and are
each other's inverse. Taking an element out (`Links.unlink`) and putting it after the head
(`Links.pushFront`) are the usual assignments, and change the list as they should; a search
along the links (`Links.search`) is a search of the list.
-/

namespace Xv6

open Function (update_self update_of_ne)

set_option linter.unusedSectionVars false

/-- The links of the nodes. -/
structure Links (α : Type*) where
  next : Option α → Option α
  prev : Option α → Option α

namespace Links

variable {α : Type*} [DecidableEq α]

/-- The head alone. -/
def nil : Links α where
  next _ := none
  prev _ := none

/-- `b->next->prev = b->prev; b->prev->next = b->next`. -/
def unlink (k : Links α) (b : α) : Links α :=
  let k := { k with prev := Function.update k.prev (k.next (some b)) (k.prev (some b)) }
  { k with next := Function.update k.next (k.prev (some b)) (k.next (some b)) }

/-- `b->next = head.next; b->prev = &head; head.next->prev = b; head.next = b`. -/
def pushFront (k : Links α) (b : α) : Links α :=
  let k := { k with next := Function.update k.next (some b) (k.next none) }
  let k := { k with prev := Function.update k.prev (some b) none }
  let k := { k with prev := Function.update k.prev (k.next none) (some b) }
  { k with next := Function.update k.next none (some b) }

/-- The links go from `u` through the elements of the list to `v`, and back. -/
def Seg (k : Links α) : Option α → List α → Option α → Prop
  | u, [], v => k.next u = v ∧ k.prev v = u
  | u, a :: l, v => (k.next u = some a ∧ k.prev (some a) = u) ∧ Seg k (some a) l v

/-- The links are a cycle through the head and the elements of the list. -/
structure Cycle (k : Links α) (l : List α) : Prop where
  nodup : l.Nodup
  seg : k.Seg none l none

variable {k k' : Links α} {u v : Option α} {a : α} {l xs ys : List α}

theorem Seg.append (h : k.Seg u xs (some a)) (h' : k.Seg (some a) ys v) : k.Seg u (xs ++ a :: ys) v := by
  induction xs generalizing u with
  | nil => exact ⟨h, h'⟩
  | cons x xs ih => exact ⟨h.1, ih h.2⟩

theorem Seg.split (h : k.Seg u (xs ++ a :: ys) v) : k.Seg u xs (some a) ∧ k.Seg (some a) ys v := by
  induction xs generalizing u with
  | nil => exact h
  | cons x xs ih =>
    obtain ⟨hx, hrest⟩ := h
    obtain ⟨h₁, h₂⟩ := ih hrest
    exact ⟨⟨hx, h₁⟩, h₂⟩

/-- Links that are not touched. -/
theorem Seg.congr (h : k.Seg u l v) (hnext : ∀ x, x = u ∨ (∃ a ∈ l, x = some a) → k'.next x = k.next x)
    (hprev : ∀ x, x = v ∨ (∃ a ∈ l, x = some a) → k'.prev x = k.prev x) : k'.Seg u l v := by
  induction l generalizing u with
  | nil =>
    refine ⟨?_, ?_⟩
    · rw [hnext u (Or.inl rfl)]
      exact h.1
    · rw [hprev v (Or.inl rfl)]
      exact h.2
  | cons a l ih =>
    refine ⟨⟨?_, ?_⟩, ih h.2 (fun x hx => ?_) fun x hx => ?_⟩
    · rw [hnext u (Or.inl rfl)]
      exact h.1.1
    · rw [hprev (some a) (Or.inr ⟨a, List.mem_cons_self, rfl⟩)]
      exact h.1.2
    · obtain rfl | ⟨b, hb, rfl⟩ := hx
      · exact hnext _ (Or.inr ⟨a, List.mem_cons_self, rfl⟩)
      · exact hnext _ (Or.inr ⟨b, List.mem_cons_of_mem a hb, rfl⟩)
    · obtain rfl | ⟨b, hb, rfl⟩ := hx
      · exact hprev _ (Or.inl rfl)
      · exact hprev _ (Or.inr ⟨b, List.mem_cons_of_mem a hb, rfl⟩)

/-- The last node before the end. -/
theorem Seg.prev_mem (h : k.Seg u l v) : k.prev v = u ∨ ∃ a ∈ l, k.prev v = some a := by
  induction l generalizing u with
  | nil => exact Or.inl h.2
  | cons a l ih =>
    right
    obtain hv | ⟨b, hb, hv⟩ := ih h.2
    · exact ⟨a, List.mem_cons_self, hv⟩
    · exact ⟨b, List.mem_cons_of_mem a hb, hv⟩

/-- The first node after the beginning. -/
theorem Seg.next_mem (h : k.Seg u l v) : k.next u = v ∨ ∃ a ∈ l, k.next u = some a := by
  cases l with
  | nil => exact Or.inl h.1
  | cons a l => exact Or.inr ⟨a, List.mem_cons_self, h.1.1⟩

theorem unlink_next (k : Links α) (h : k.next (some a) ≠ some a) : (k.unlink a).next =
    Function.update k.next (k.prev (some a)) (k.next (some a)) := by
  unfold unlink
  dsimp only
  rw [update_of_ne (Ne.symm h)]

/-- Taking out what is between two segments. -/
theorem Seg.unlink (hself : k.next (some a) ≠ some a) (h : k.Seg u xs (some a)) (h' : k.Seg (some a) ys v)
    (hnd : (xs ++ ys).Nodup) (hu : ∀ x ∈ xs ++ ys, u ≠ some x) (hv : ∀ x ∈ xs ++ ys, v ≠ some x) :
    (k.unlink a).Seg u (xs ++ ys) v := by
  have hnext := k.unlink_next hself
  have hprev : (k.unlink a).prev = Function.update k.prev (k.next (some a)) (k.prev (some a)) := rfl
  induction xs generalizing u with
  | nil =>
    rw [h.2] at hnext hprev
    cases ys with
    | nil =>
      refine ⟨?_, ?_⟩
      · rw [hnext, update_self, h'.1]
      · rw [hprev, h'.1, update_self]
    | cons y ys =>
      rw [h'.1.1] at hnext hprev
      refine ⟨⟨?_, ?_⟩, h'.2.congr (fun x hx => ?_) fun x hx => ?_⟩
      · rw [hnext, update_self]
      · rw [hprev, update_self]
      · rw [hnext, update_of_ne]
        obtain rfl | ⟨b, hb, rfl⟩ := hx
        · exact Ne.symm (hu y List.mem_cons_self)
        · exact Ne.symm (hu b (List.mem_cons_of_mem y hb))
      · rw [hprev, update_of_ne]
        obtain rfl | ⟨b, hb, rfl⟩ := hx
        · exact hv y List.mem_cons_self
        · rintro heq
          cases heq
          exact (List.nodup_cons.mp hnd).1 hb
  | cons x xs ih =>
    obtain ⟨hx, hnd⟩ := List.nodup_cons.mp hnd
    refine ⟨⟨?_, ?_⟩, ih h.2 hnd (fun z hz heq => hx (Option.some.inj heq ▸ hz)) fun z hz =>
      hv z (List.mem_cons_of_mem x hz)⟩
    · rw [hnext, update_of_ne, h.1.1]
      obtain hp | ⟨b, hb, hp⟩ := h.2.prev_mem
      · rw [hp]
        exact hu x List.mem_cons_self
      · rw [hp]
        exact hu b (List.mem_cons_of_mem x (List.mem_append_left ys hb))
    · rw [hprev, update_of_ne, h.1.2]
      obtain hn | ⟨b, hb, hn⟩ := h'.next_mem
      · rw [hn]
        exact Ne.symm (hv x List.mem_cons_self)
      · rw [hn]
        rintro heq
        cases heq
        exact hx (List.mem_append_right xs hb)

theorem nil_cycle : (nil : Links α).Cycle [] :=
  ⟨List.nodup_nil, rfl, rfl⟩

/-- Taking an element out of the cycle. -/
theorem Cycle.unlink (h : k.Cycle l) (ha : a ∈ l) : (k.unlink a).Cycle (l.erase a) := by
  obtain ⟨xs, ys, rfl⟩ := List.append_of_mem ha
  have hnd := h.nodup
  obtain ⟨hxs, hys⟩ := h.seg.split
  have hax : a ∉ xs := fun hmem => (List.nodup_append.mp hnd).2.2 a hmem a List.mem_cons_self rfl
  have hay : a ∉ ys := (List.nodup_cons.mp (List.nodup_append.mp hnd).2.1).1
  have herase : (xs ++ a :: ys).erase a = xs ++ ys := by
    rw [List.erase_append_right _ hax, List.erase_cons_head]
  have hself : k.next (some a) ≠ some a := by
    obtain hn | ⟨b, hb, hn⟩ := hys.next_mem
    · rw [hn]
      exact (Option.some_ne_none _).symm
    · rw [hn]
      rintro heq
      exact hay (Option.some.inj heq ▸ hb)
  rw [herase]
  have hnd' : (xs ++ ys).Nodup := herase ▸ hnd.erase a
  have hhead : ∀ x ∈ xs ++ ys, none ≠ some x := fun x _ => (Option.some_ne_none x).symm
  exact ⟨hnd', hxs.unlink hself hys hnd' hhead hhead⟩

/-- Putting a new element after the head. -/
theorem Cycle.pushFront (h : k.Cycle l) (ha : a ∉ l) : (k.pushFront a).Cycle (a :: l) := by
  have hseg := h.seg
  refine ⟨List.nodup_cons.mpr ⟨ha, h.nodup⟩, ?_⟩
  have hnone : k.next none ≠ some a := by
    obtain hn | ⟨b, hb, hn⟩ := hseg.next_mem
    · rw [hn]
      exact (Option.some_ne_none _).symm
    · rw [hn]
      rintro heq
      exact ha (Option.some.inj heq ▸ hb)
  have hnext : (k.pushFront a).next =
      Function.update (Function.update k.next (some a) (k.next none)) none (some a) := rfl
  have hprev : (k.pushFront a).prev =
      Function.update (Function.update k.prev (some a) none) (k.next none) (some a) := by
    unfold Links.pushFront
    dsimp only
    rw [update_of_ne (by simp)]
  refine ⟨⟨?_, ?_⟩, ?_⟩
  · rw [hnext, update_self]
  · rw [hprev, update_of_ne (Ne.symm hnone), update_self]
  · cases l with
    | nil =>
      refine ⟨?_, ?_⟩
      · rw [hnext, update_of_ne (by simp), update_self, hseg.1]
      · rw [hprev, hseg.1, update_self]
    | cons b l =>
      have hab : a ≠ b := fun heq => ha (heq ▸ List.mem_cons_self)
      have hal : a ∉ l := fun hmem => ha (List.mem_cons_of_mem b hmem)
      refine ⟨⟨?_, ?_⟩, hseg.2.congr (fun x hx => ?_) fun x hx => ?_⟩
      · rw [hnext, update_of_ne (by simp), update_self, hseg.1.1]
      · rw [hprev, hseg.1.1, update_self]
      · rw [hnext]
        obtain rfl | ⟨c, hc, rfl⟩ := hx
        · rw [update_of_ne (by simp), update_of_ne (by simpa using Ne.symm hab)]
        · have hac : c ≠ a := fun heq => hal (heq ▸ hc)
          rw [update_of_ne (by simp), update_of_ne (by simpa using hac)]
      · rw [hprev, hseg.1.1]
        obtain rfl | ⟨c, hc, rfl⟩ := hx
        · rw [update_of_ne (by simp), update_of_ne (by simp)]
        · have hac : c ≠ a := fun heq => hal (heq ▸ hc)
          have hbc : c ≠ b := fun heq => (List.nodup_cons.mp h.nodup).1 (heq ▸ hc)
          rw [update_of_ne (by simpa using hbc), update_of_ne (by simpa using hac)]

/-- Putting elements after the head one by one. -/
theorem Cycle.foldl_pushFront (h : k.Cycle l) (xs : List α) (hnd : (xs.reverse ++ l).Nodup) :
    (xs.foldl Links.pushFront k).Cycle (xs.reverse ++ l) := by
  induction xs generalizing k l with
  | nil => exact h
  | cons x xs ih =>
    rw [List.reverse_cons, List.append_assoc, List.singleton_append] at hnd ⊢
    have hx : x ∉ l := (List.nodup_cons.mp (List.nodup_append.mp hnd).2.1).1
    exact ih (h.pushFront hx) hnd

/-! ## Searching along the links -/

/-- Go along the links from a node until the test holds or the head is reached, at most so many elements. -/
def search (step : Option α → Option α) (p : α → Bool) : ℕ → Option α → Option α
  | _, none => none
  | 0, some _ => none
  | n + 1, some a => if p a then some a else search step p n (step (some a))

theorem Seg.search_next (h : k.Seg u l none) (p : α → Bool) {n : ℕ} (hn : l.length ≤ n) :
    search k.next p n (k.next u) = l.find? p := by
  induction l generalizing u n with
  | nil =>
    rw [h.1]
    cases n <;> rfl
  | cons a l ih =>
    obtain ⟨m, rfl⟩ : ∃ m, n = m + 1 := ⟨n - 1, by rw [List.length_cons] at hn; omega⟩
    rw [h.1.1, search, List.find?_cons]
    cases hp : p a with
    | true => rfl
    | false => exact ih h.2 (Nat.le_of_succ_le_succ hn)

/-- The links the other way are a segment of the reversed list. -/
theorem Seg.reverse (h : k.Seg u l v) : (⟨k.prev, k.next⟩ : Links α).Seg v l.reverse u := by
  induction l generalizing u with
  | nil => exact ⟨h.2, h.1⟩
  | cons a l ih =>
    rw [List.reverse_cons]
    have hlast : (⟨k.prev, k.next⟩ : Links α).Seg (some a) [] u := ⟨h.1.2, h.1.1⟩
    exact (ih h.2).append hlast

/-- A search from the head. -/
theorem Cycle.search_next (h : k.Cycle l) (p : α → Bool) {n : ℕ} (hn : l.length ≤ n) :
    search k.next p n (k.next none) = l.find? p :=
  h.seg.search_next p hn

/-- A search from the head, backwards. -/
theorem Cycle.search_prev (h : k.Cycle l) (p : α → Bool) {n : ℕ} (hn : l.length ≤ n) :
    search k.prev p n (k.prev none) = l.reverse.find? p :=
  h.seg.reverse.search_next p (by rwa [List.length_reverse])

end Links

end Xv6
