import Mathlib.Data.List.Basic
import Mathlib.Tactic.SplitIfs

/-!
# A map in a list of slots

A slot is free, or has a key with a value. `find` looks for the first slot with a key, `put` puts a new one in the first
free slot, or at the end if there is none, and a slot is freed in place. As long as keys are put in only when they are
not there, they are pairwise different (`Distinct`), and then the list is the map of its pairs (`find_eq_some`) : putting
in a key or freeing its slot changes nothing for the others.
-/

set_option linter.unusedSectionVars false

namespace Xv6

namespace SlotMap

variable {κ ν : Type*} [DecidableEq κ] {l : List (Option (κ × ν))} {k j : κ} {v w : ν} {i : ℕ}

/-- The position and the value of the first slot with a key, from position `i` on. -/
def findFrom (k : κ) : ℕ → List (Option (κ × ν)) → Option (ℕ × ν)
  | _, [] => none
  | i, none :: l => findFrom k (i + 1) l
  | i, some (j, v) :: l => if k = j then some (i, v) else findFrom k (i + 1) l

def find (k : κ) (l : List (Option (κ × ν))) : Option ν :=
  (findFrom k 0 l).map Prod.snd

/-- The first free slot, or the one after the last. -/
def place : List (Option (κ × ν)) → ℕ
  | [] => 0
  | none :: _ => 0
  | some _ :: l => place l + 1

/-- A slot is set; at the end of the list, it is a new one. -/
def setAt (l : List (Option (κ × ν))) (i : ℕ) (x : Option (κ × ν)) : List (Option (κ × ν)) :=
  if i < l.length then l.set i x else l ++ [x]

/-- No key is in two slots. -/
def Distinct (l : List (Option (κ × ν))) : Prop :=
  ∀ (i j : ℕ) (e f : κ × ν), l[i]? = some (some e) → l[j]? = some (some f) → e.1 = f.1 → i = j

theorem findFrom_spec (k : κ) (l : List (Option (κ × ν))) (i : ℕ) :
    match findFrom k i l with
    | none => ∀ v, some (k, v) ∉ l
    | some (j, v) => i ≤ j ∧ l[j - i]? = some (some (k, v)) := by
  induction l generalizing i with
  | nil => exact fun v h => by cases h
  | cons x l ih =>
    have hrest : ∀ {o : Option (ℕ × ν)}, findFrom k (i + 1) l = o → (∀ v, x ≠ some (k, v)) →
        match o with
        | none => ∀ v, some (k, v) ∉ x :: l
        | some (j, v) => i ≤ j ∧ (x :: l)[j - i]? = some (some (k, v)) := by
      intro o ho hx
      have h := ih (i + 1)
      rw [ho] at h
      cases o with
      | none => exact fun v hv => (List.mem_cons.mp hv).elim (fun heq => hx v heq.symm) (h v)
      | some r =>
        obtain ⟨hle, hget⟩ := h
        refine ⟨by omega, ?_⟩
        rw [show r.1 - i = (r.1 - (i + 1)) + 1 by omega]
        exact hget
    rcases x with _ | ⟨j, v⟩
    · exact hrest rfl fun v h => by cases h
    · rw [findFrom]
      split_ifs with hk
      · subst hk
        exact ⟨Nat.le_refl _, by rw [Nat.sub_self]; rfl⟩
      · exact hrest rfl fun w h => hk (by cases h; rfl)

theorem find_none : find k l = none ↔ ∀ v, some (k, v) ∉ l := by
  have h := findFrom_spec k l 0
  rw [find]
  cases hf : findFrom k 0 l with
  | none =>
    rw [hf] at h
    exact iff_of_true rfl h
  | some r =>
    rw [hf] at h
    exact iff_of_false (fun h => by cases h) fun hno => hno r.2 (List.mem_of_getElem? h.2)

theorem Distinct.eq (h : Distinct l) (hv : some (k, v) ∈ l) (hw : some (k, w) ∈ l) : v = w := by
  obtain ⟨i, hi⟩ := List.mem_iff_getElem?.mp hv
  obtain ⟨j, hj⟩ := List.mem_iff_getElem?.mp hw
  obtain rfl := h i j _ _ hi hj rfl
  rw [hi] at hj
  cases hj
  rfl

/-- The list is the map of its pairs. -/
theorem Distinct.find_eq_some (h : Distinct l) : find k l = some v ↔ some (k, v) ∈ l := by
  constructor
  · intro hf
    obtain ⟨⟨j, w⟩, hj, rfl⟩ := Option.map_eq_some_iff.mp hf
    have hspec := findFrom_spec k l 0
    rw [hj] at hspec
    exact List.mem_of_getElem? hspec.2
  · intro hv
    cases hf : find k l with
    | none => exact absurd hv (find_none.mp hf v)
    | some w =>
      obtain ⟨⟨j, w⟩, hj, rfl⟩ := Option.map_eq_some_iff.mp hf
      have hspec := findFrom_spec k l 0
      rw [hj] at hspec
      rw [h.eq hv (List.mem_of_getElem? hspec.2)]

theorem place_le (l : List (Option (κ × ν))) : place l ≤ l.length := by
  induction l with
  | nil => exact Nat.zero_le _
  | cons x l ih =>
    cases x with
    | none => exact Nat.zero_le _
    | some e => exact Nat.succ_le_succ ih

/-- Without a free slot the list grows, and not otherwise. -/
theorem place_eq_length : place l = l.length ↔ none ∉ l := by
  induction l with
  | nil => exact iff_of_true rfl fun h => by cases h
  | cons x l ih =>
    cases x with
    | none => exact iff_of_false (fun h => by cases h) fun h => h List.mem_cons_self
    | some e =>
      rw [place, List.length_cons, Nat.succ_inj, ih, List.mem_cons, not_or]
      exact ⟨fun h => ⟨fun heq => (by cases heq), h⟩, fun h => h.2⟩

/-! ## Setting a slot -/

section Set

variable {x : Option (κ × ν)} (hi : i ≤ l.length)
include hi

theorem setAt_getElem? (m : ℕ) : (setAt l i x)[m]? = if m = i then some x else l[m]? := by
  unfold setAt
  split_ifs with hlt hm hm
  · rw [hm, List.getElem?_set_self hlt]
  · exact List.getElem?_set_ne (Ne.symm hm)
  · rw [hm, List.getElem?_append_right (Nat.le_of_not_lt hlt), show i - l.length = 0 by omega]
    rfl
  · by_cases hml : m < l.length
    · exact List.getElem?_append_left hml
    · rw [List.getElem?_eq_none (Nat.le_of_not_lt hml), List.getElem?_eq_none]
      rw [List.length_append, List.length_singleton]
      omega

end Set

section Put

variable (h : Distinct l) (hnone : find k l = none)
include h hnone

theorem distinct_put (v : ν) : Distinct (setAt l (place l) (some (k, v))) := by
  have hno := find_none.mp hnone
  intro m n e f he hf heq
  rw [setAt_getElem? (place_le l)] at he hf
  split_ifs at he hf with hm hn hn
  · rw [hm, hn]
  · cases he
    obtain ⟨j, w⟩ := f
    exact absurd (List.mem_of_getElem? hf) ((show k = j from heq) ▸ hno w)
  · cases hf
    obtain ⟨j, w⟩ := e
    exact absurd (List.mem_of_getElem? he) ((show j = k from heq) ▸ hno w)
  · exact h m n e f he hf heq

end Put

section Clear

variable (h : Distinct l) (hi : l[i]? = some (some (k, v)))
include h hi

theorem distinct_clear : Distinct (setAt l i none) := by
  have hle : i ≤ l.length := Nat.le_of_lt (List.getElem?_eq_some_iff.mp hi).1
  intro m n e f he hf heq
  rw [setAt_getElem? hle] at he hf
  split_ifs at he hf
  · cases he
  · cases he
  · cases hf
  · exact h m n e f he hf heq

end Clear

end SlotMap

end Xv6
