import Mathlib.Data.List.Basic
import Mathlib.Data.List.Nodup
import Mathlib.Data.List.Perm.Basic

/-!
# Lists that are linked by a function

A linked list in memory is a function `next` from nodes to nodes. `Path next a l b` says that from the node `a` one comes
through the nodes of `l` to `b`; a cycle is a path from a node to itself. Changing the link of one node changes where the
path up to it leads (`Path.retarget`), and a path may be begun at another node with the same link (`Path.restart`); so
nodes are put in and taken out. `seek` walks along the links to the first node that meets a condition.
-/

namespace Xv6

variable {α : Type*} {next next' : α → α} {a b t x y : α} {l r u : List α}

/-- From `a`, through the nodes of `l`, to `b`. -/
def Path (next : α → α) : α → List α → α → Prop
  | a, [], b => next a = b
  | a, x :: l, b => next a = x ∧ Path next x l b

/-- The last node before the end of a path. -/
def lastNode : α → List α → α
  | a, [] => a
  | _, x :: l => lastNode x l

theorem lastNode_mem (a : α) (l : List α) : lastNode a l ∈ a :: l := by
  induction l generalizing a with
  | nil => exact List.mem_cons_self
  | cons x l ih => exact List.mem_cons_of_mem a (ih x)

theorem lastNode_concat (a : α) (l : List α) (x : α) : lastNode a (l ++ [x]) = x := by
  induction l generalizing a with
  | nil => rfl
  | cons y l ih => exact ih y

namespace Path

theorem append : Path next a (l ++ x :: r) b ↔ Path next a l x ∧ Path next x r b := by
  induction l generalizing a with
  | nil => rfl
  | cons y l ih => rw [List.cons_append, Path, ih, Path, and_assoc]

/-- The last link of a path. -/
theorem last (h : Path next a l b) : next (lastNode a l) = b := by
  induction l generalizing a with
  | nil => exact h
  | cons x l ih => exact ih h.2

/-- The part of a path after some of its nodes. -/
theorem after (h : Path next a (l ++ r) b) : Path next (lastNode a l) r b := by
  induction l generalizing a with
  | nil => exact h
  | cons x l ih => exact ih h.2

/-- The part of a path up to some of its nodes. -/
theorem before (h : Path next a (l ++ r) b) : Path next a l (next (lastNode a l)) := by
  induction l generalizing a with
  | nil => rfl
  | cons x l ih => exact ⟨h.1, ih h.2⟩

theorem join (h₁ : Path next a l x) (h₂ : Path next (lastNode a l) r b) : Path next a (l ++ r) b := by
  induction l generalizing a with
  | nil => exact h₂
  | cons y l ih => exact ⟨h₁.1, ih h₁.2 h₂⟩

theorem congr (h : Path next a l b) (hsame : ∀ y ∈ a :: l, next' y = next y) : Path next' a l b := by
  induction l generalizing a with
  | nil => exact (hsame a List.mem_cons_self).trans h
  | cons x l ih =>
    exact ⟨(hsame a List.mem_cons_self).trans h.1, ih h.2 fun y hy => hsame y (List.mem_cons_of_mem a hy)⟩

theorem restart (h : Path next a l b) (hx : next' x = next a) (hsame : ∀ y ∈ l, next' y = next y) :
    Path next' x l b := by
  cases l with
  | nil => exact hx.trans h
  | cons z l => exact ⟨hx.trans h.1, h.2.congr hsame⟩

theorem retarget (h : Path next a l b) (hnd : (a :: l).Nodup)
    (hsame : ∀ y ∈ a :: l, y ≠ lastNode a l → next' y = next y) : Path next' a l (next' (lastNode a l)) := by
  induction l generalizing a with
  | nil => rfl
  | cons x l ih =>
    rw [List.nodup_cons] at hnd
    refine ⟨?_, ih h.2 hnd.2 fun y hy => hsame y (List.mem_cons_of_mem a hy)⟩
    rw [hsame a List.mem_cons_self fun heq => hnd.1 (heq ▸ lastNode_mem x l), h.1]

theorem map_next (h : Path next a l b) : (a :: l).map next = l ++ [b] := by
  induction l generalizing a with
  | nil => exact congrArg (fun x => [x]) h
  | cons x l ih => rw [List.map_cons, h.1, ih h.2, List.cons_append]

/-- In a cycle no two nodes are linked to the same node. -/
theorem inj (h : Path next a l a) (hnd : (a :: l).Nodup) (hx : x ∈ a :: l) (hy : y ∈ a :: l) (heq : next x = next y) :
    x = y := by
  have hmap : ((a :: l).map next).Nodup := by
    rw [h.map_next]
    exact (List.perm_append_singleton a l).nodup_iff.mpr hnd
  exact List.inj_on_of_nodup_map hmap hx hy heq

/-- A cycle may be entered at any of its nodes. -/
theorem rotate (h : Path next a l a) (hx : x ∈ a :: l) : ∃ r, Path next x r x ∧ (x :: r).Perm (a :: l) := by
  obtain rfl | hx := List.mem_cons.mp hx
  · exact ⟨l, h, .refl _⟩
  · obtain ⟨l₁, l₂, rfl⟩ := List.append_of_mem hx
    obtain ⟨h₁, h₂⟩ := append.mp h
    refine ⟨l₂ ++ a :: l₁, append.mpr ⟨h₂, h₁⟩, ?_⟩
    change ((x :: l₂) ++ (a :: l₁)).Perm ((a :: l₁) ++ (x :: l₂))
    exact List.perm_append_comm

end Path

/-- On a path through ascending numbers every link but the last leads up. -/
theorem Path.next_cases {next : ℕ → ℕ} {a b y : ℕ} {l : List ℕ} (h : Path next a l b) (hlt : (a :: l).Pairwise (· < ·))
    (hy : y ∈ a :: l) : y = lastNode a l ∨ next y ∈ l ∧ y < next y := by
  induction l generalizing a with
  | nil => exact Or.inl (List.mem_singleton.mp hy)
  | cons x l ih =>
    obtain ⟨hax, hl⟩ := List.pairwise_cons.mp hlt
    obtain rfl | hy := List.mem_cons.mp hy
    · rw [h.1]
      exact Or.inr ⟨List.mem_cons_self, hax x List.mem_cons_self⟩
    · exact (ih h.2 hl hy).imp_right fun h => ⟨List.mem_cons_of_mem x h.1, h.2⟩

/-- From the node `a` along the links to the first node where `stop` holds. -/
def seek (stop : α → Bool) (next : α → α) : ℕ → α → Option α
  | 0, _ => none
  | n + 1, a => if stop a then some a else seek stop next n (next a)

variable {stop : α → Bool}

theorem seek_path (h : Path next a l b) (hno : ∀ y ∈ a :: l, stop y = false) (n : ℕ) :
    seek stop next (n + (l.length + 1)) a = seek stop next n b := by
  induction l generalizing a with
  | nil =>
    change seek stop next (n + 1) a = _
    rw [seek, hno a List.mem_cons_self, if_neg Bool.false_ne_true, show next a = b from h]
  | cons x l ih =>
    rw [List.length_cons, ← Nat.add_assoc, seek, hno a List.mem_cons_self, if_neg Bool.false_ne_true, h.1]
    exact ih h.2 fun y hy => hno y (List.mem_cons_of_mem a hy)

/-- On a cycle `seek` finds the node where `stop` holds, wherever it begins. -/
theorem seek_cycle (h : Path next a l a) (ht : t ∈ a :: l) (hstop : ∀ y ∈ a :: l, stop y = true ↔ y = t)
    {n : ℕ} (hn : l.length + 1 < n) : seek stop next n a = some t := by
  have hfound : ∀ k, seek stop next (k + 1) t = some t := fun k => by
    rw [seek, if_pos ((hstop t ht).mpr rfl)]
  by_cases hat : a = t
  · subst hat
    obtain ⟨n, rfl⟩ := Nat.exists_eq_succ_of_ne_zero (Nat.ne_of_gt (Nat.zero_lt_of_lt hn))
    exact hfound n
  · obtain ⟨l₁, l₂, rfl, hnot⟩ := List.eq_append_cons_of_mem (List.mem_of_ne_of_mem (Ne.symm hat) ht)
    have hpath := (Path.append.mp h).1
    have hno : ∀ y ∈ a :: l₁, stop y = false := fun y hy => by
      have hmem : y ∈ a :: (l₁ ++ t :: l₂) := by
        rw [← List.cons_append]
        exact List.mem_append_left _ hy
      rw [Bool.eq_false_iff, Ne, hstop y hmem]
      rintro rfl
      obtain rfl | hy := List.mem_cons.mp hy
      · exact hat rfl
      · exact hnot hy
    rw [List.length_append, List.length_cons] at hn
    rw [show n = n - (l₁.length + 2) + 1 + (l₁.length + 1) by omega, seek_path hpath hno]
    exact hfound _

end Xv6
