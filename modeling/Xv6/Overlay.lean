import Mathlib.Data.List.Nodup
import Mathlib.Logic.Function.Basic

/-!
# A function under a list of writes

`overlay f t` is `f` after the writes of the list `t`, in order : what a store holds after a redo log
has been replayed over it. Replaying a log over a store that already has some of its writes gives the
same store (`overlay_congr_of_mem`, `update_overlay_take`), which is what makes a replay that is broken off and
begun anew harmless. `record` adds a write to a list and absorbs an earlier one to the same place.
-/

set_option linter.unusedSectionVars false

namespace Xv6

open Function (update_self update_of_ne)

variable {α β : Type*} [DecidableEq α]

/-- `f` after the writes of `t`. -/
def overlay (f : α → β) (t : List (α × β)) : α → β :=
  t.foldl (fun f x => Function.update f x.1 x.2) f

/-- The places written. -/
def places (t : List (α × β)) : List α :=
  t.map Prod.fst

/-- One write more; it replaces an earlier one to the same place. -/
def record (t : List (α × β)) (a : α) (b : β) : List (α × β) :=
  if a ∈ places t then t.map fun x => if x.1 = a then (a, b) else x else t ++ [(a, b)]

variable {f g : α → β} {t t' : List (α × β)} {a x : α} {b : β} {k j : ℕ}

@[simp] theorem overlay_nil (f : α → β) : overlay f [] = f := rfl

@[simp] theorem overlay_cons (f : α → β) (x : α × β) (t : List (α × β)) :
    overlay f (x :: t) = overlay (Function.update f x.1 x.2) t := rfl

theorem overlay_append (f : α → β) (t t' : List (α × β)) :
    overlay f (t ++ t') = overlay (overlay f t) t' :=
  List.foldl_append

@[simp] theorem places_nil : places ([] : List (α × β)) = [] := rfl

@[simp] theorem places_cons (y : α × β) (t : List (α × β)) : places (y :: t) = y.1 :: places t := rfl

@[simp] theorem length_places (t : List (α × β)) : (places t).length = t.length :=
  List.length_map _

theorem getD_places {a : α} (hj : j < t.length) : (places t).getD j a = t[j].1 := by
  simp [places, List.getD_eq_getElem?_getD, List.getElem?_eq_getElem hj]

theorem places_drop (k : ℕ) (t : List (α × β)) : places (t.drop k) = (places t).drop k :=
  List.map_drop

/-- A place that is not written keeps its value. -/
theorem overlay_of_not_mem (h : x ∉ places t) : overlay f t x = f x := by
  induction t generalizing f with
  | nil => rfl
  | cons y t ih =>
    rw [places_cons, List.mem_cons, not_or] at h
    rw [overlay_cons, ih h.2, update_of_ne h.1]

/-- The value of a place that is written does not depend on what was there. -/
theorem overlay_congr_of_mem (h : x ∈ places t) : overlay f t x = overlay g t x := by
  induction t generalizing f g with
  | nil => cases h
  | cons y t ih =>
    by_cases hx : x ∈ places t
    · exact ih hx
    · have hxy : x = y.1 := (List.mem_cons.mp h).resolve_right hx
      rw [overlay_cons, overlay_cons, overlay_of_not_mem hx, overlay_of_not_mem hx, hxy,
        update_self, update_self]

theorem overlay_congr (h : x ∉ places t → f x = g x) : overlay f t x = overlay g t x := by
  by_cases hx : x ∈ places t
  · exact overlay_congr_of_mem hx
  · rw [overlay_of_not_mem hx, overlay_of_not_mem hx, h hx]

theorem overlay_of_mem (h : (places t).Nodup) (hx : (a, b) ∈ t) : overlay f t a = b := by
  induction t generalizing f with
  | nil => cases hx
  | cons y t ih =>
    rw [places_cons, List.nodup_cons] at h
    obtain rfl | hx := List.mem_cons.mp hx
    · rw [overlay_cons, overlay_of_not_mem h.1, update_self]
    · exact ih h.2 hx

theorem overlay_take_succ (hk : k < t.length) :
    overlay f (t.take (k + 1)) = Function.update (overlay f (t.take k)) t[k].1 t[k].2 := by
  rw [List.take_add_one, List.getElem?_eq_getElem hk, overlay_append]
  rfl

/-- A write made again changes nothing. -/
theorem update_overlay_take (h : (places t).Nodup) (hj : j < t.length) (hjk : j < k) :
    Function.update (overlay f (t.take k)) t[j].1 t[j].2 = overlay f (t.take k) := by
  refine Function.update_eq_self_iff.mpr (overlay_of_mem ?_ ?_).symm
  · exact h.sublist ((List.take_sublist k t).map _)
  · rw [List.mem_take_iff_getElem]
    exact ⟨j, by omega, rfl⟩

/-- With some of the writes made, each place is as before them or as after all of them. -/
theorem overlay_take (h : (places t).Nodup) (k : ℕ) (x : α) :
    overlay f (t.take k) x = f x ∨ overlay f (t.take k) x = overlay f t x := by
  by_cases hx : x ∈ places (t.take k)
  · right
    have hdrop : x ∉ places (t.drop k) := by
      intro hdrop
      rw [← List.take_append_drop k t, places, List.map_append] at h
      exact (List.nodup_append.mp h).2.2 x hx x hdrop rfl
    calc overlay f (t.take k) x = overlay (overlay f (t.take k)) (t.drop k) x :=
          (overlay_of_not_mem hdrop).symm
      _ = overlay f t x := by rw [← overlay_append, List.take_append_drop]
  · exact Or.inl (overlay_of_not_mem hx)

theorem places_map_replace :
    places (t.map fun y => if y.1 = a then (a, b) else y) = places t := by
  simp only [places, List.map_map]
  refine List.map_congr_left fun y _ => ?_
  dsimp only [Function.comp]
  split_ifs with hy
  · exact hy.symm
  · rfl

theorem places_record : places (record t a b) = if a ∈ places t then places t else places t ++ [a] := by
  unfold record
  split_ifs with h
  · exact places_map_replace
  · simp [places]

theorem overlay_map_replace (hx : x ≠ a) :
    overlay f (t.map fun y => if y.1 = a then (a, b) else y) x = overlay f t x := by
  induction t generalizing f with
  | nil => rfl
  | cons y t ih =>
    rw [List.map_cons, overlay_cons, overlay_cons, ih]
    refine overlay_congr fun _ => ?_
    split_ifs with hy
    · rw [update_of_ne hx, update_of_ne (hy ▸ hx)]
    · rfl

theorem overlay_map_replace_self (h : a ∈ places t) :
    overlay f (t.map fun y => if y.1 = a then (a, b) else y) a = b := by
  induction t generalizing f with
  | nil => cases h
  | cons y t ih =>
    rw [List.map_cons, overlay_cons]
    by_cases ha : a ∈ places t
    · exact ih ha
    · have hy : y.1 = a := ((List.mem_cons.mp h).resolve_right ha).symm
      rw [overlay_of_not_mem (by rwa [places_map_replace]), if_pos hy, update_self]

/-- A recorded write is the last one to its place. -/
theorem overlay_record (f : α → β) (t : List (α × β)) (a : α) (b : β) :
    overlay f (record t a b) = Function.update (overlay f t) a b := by
  funext x
  by_cases hx : x = a
  · subst hx
    rw [update_self]
    unfold record
    split_ifs with h
    · exact overlay_map_replace_self h
    · rw [overlay_append]
      simp
  · rw [update_of_ne hx]
    unfold record
    split_ifs with h
    · exact overlay_map_replace hx
    · rw [overlay_append]
      simp [hx]

end Xv6
