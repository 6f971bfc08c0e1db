import Mathlib.Data.List.Range

/-!
# Reading memory with holes

A memory with holes is a function `f : ℕ → Option α`, and `Reads f a l` says that it has the elements of `l` from `a`
on. `fetch f n a` reads `n` elements and stops at the first hole; `scanTo f z n a` also stops once it has read the
terminator `z`, which it must find among the first `n`.

Where one memory has more holes than another, and the other has `z` in them, the strings that end with `z` are the same
in both, unless one of them ends at such a hole (`same_strings_iff`).
-/

namespace Xv6

variable {α : Type*}

/-- The elements from `a` on are those of the list. -/
def Reads (f : ℕ → Option α) : ℕ → List α → Prop
  | _, [] => True
  | a, b :: l => f a = some b ∧ Reads f (a + 1) l

/-- `n` elements from `a` on, up to the first hole; says whether there was none. -/
def fetch (f : ℕ → Option α) : ℕ → ℕ → Bool × List α
  | 0, _ => (true, [])
  | n + 1, a =>
    match f a with
    | none => (false, [])
    | some b => ((fetch f n (a + 1)).1, b :: (fetch f n (a + 1)).2)

/-- At most `n` elements from `a` on, up to the first hole or up to and with `z`; says whether it is `z`. -/
def scanTo [DecidableEq α] (f : ℕ → Option α) (z : α) : ℕ → ℕ → Bool × List α
  | 0, _ => (false, [])
  | n + 1, a =>
    match f a with
    | none => (false, [])
    | some b => if b = z then (true, [z]) else ((scanTo f z n (a + 1)).1, b :: (scanTo f z n (a + 1)).2)

variable {f g : ℕ → Option α} {a n k : ℕ} {b z : α} {l l' : List α}

theorem reads_append : Reads f a (l ++ l') ↔ Reads f a l ∧ Reads f (a + l.length) l' := by
  induction l generalizing a with
  | nil => simp [Reads]
  | cons b l ih =>
    rw [List.cons_append, Reads, ih, Reads, and_assoc, List.length_cons, Nat.add_comm l.length 1, Nat.add_assoc]

theorem reads_concat : Reads f a (l ++ [b]) ↔ Reads f a l ∧ f (a + l.length) = some b := by
  rw [reads_append]
  exact and_congr_right fun _ => and_iff_left trivial

theorem Reads.mono (hfg : ∀ a b, f a = some b → g a = some b) (h : Reads f a l) : Reads g a l := by
  induction l generalizing a with
  | nil => trivial
  | cons b l ih => exact ⟨hfg a b h.1, ih h.2⟩

/-! ## Fetching -/

theorem fetch_none (h : f a = none) : fetch f (n + 1) a = (false, []) := by
  rw [fetch, h]

theorem fetch_some (h : f a = some b) :
    fetch f (n + 1) a = ((fetch f n (a + 1)).1, b :: (fetch f n (a + 1)).2) := by
  rw [fetch, h]

/-- A piece without holes, and what comes after it. -/
theorem fetch_append (h : Reads f a l) (n : ℕ) : fetch f (l.length + n) a =
    ((fetch f n (a + l.length)).1, l ++ (fetch f n (a + l.length)).2) := by
  induction l generalizing a with
  | nil => simp
  | cons b l ih =>
    rw [List.length_cons, Nat.add_right_comm, fetch_some h.1, ih h.2, Nat.add_right_comm, Nat.add_assoc]
    rfl

theorem fetch_eq_true : fetch f n a = (true, l) ↔ l.length = n ∧ Reads f a l := by
  constructor
  · intro h
    induction n generalizing a l with
    | zero =>
      obtain rfl : [] = l := congrArg Prod.snd h
      exact ⟨rfl, trivial⟩
    | succ n ih =>
      cases hf : f a with
      | none =>
        rw [fetch_none hf] at h
        cases h
      | some b =>
        rw [fetch_some hf, Prod.mk.injEq] at h
        obtain ⟨hlen, hreads⟩ := ih (Prod.ext h.1 rfl)
        rw [← h.2]
        exact ⟨congrArg Nat.succ hlen, hf, hreads⟩
  · rintro ⟨rfl, h⟩
    rw [← Nat.add_zero l.length, fetch_append h]
    simp [fetch]

/-- What is fetched is there, and a hole comes after it if it is less than `n` elements. -/
theorem fetch_spec (f : ℕ → Option α) (n a : ℕ) : Reads f a (fetch f n a).2 ∧
    if (fetch f n a).1 = true then (fetch f n a).2.length = n
    else (fetch f n a).2.length < n ∧ f (a + (fetch f n a).2.length) = none := by
  induction n generalizing a with
  | zero => exact ⟨trivial, rfl⟩
  | succ n ih =>
    cases hf : f a with
    | none =>
      rw [fetch_none hf]
      exact ⟨trivial, Nat.succ_pos n, hf⟩
    | some b =>
      rw [fetch_some hf]
      obtain ⟨hreads, hstop⟩ := ih (a + 1)
      refine ⟨⟨hf, hreads⟩, ?_⟩
      dsimp only
      split_ifs at hstop ⊢
      · exact congrArg Nat.succ hstop
      · rw [List.length_cons, Nat.add_comm _ 1, ← Nat.add_assoc, Nat.add_comm 1]
        exact ⟨Nat.succ_lt_succ hstop.1, hstop.2⟩

theorem Reads.get (h : Reads f a l) {j : ℕ} (hj : j < l.length) : f (a + j) = some (l[j]) := by
  induction l generalizing a j with
  | nil => exact absurd hj (Nat.not_lt_zero j)
  | cons b l ih =>
    cases j with
    | zero => exact h.1
    | succ j =>
      rw [← Nat.add_assoc, Nat.add_right_comm]
      exact ih h.2 (Nat.lt_of_succ_lt_succ hj)

theorem Reads.ne_none (h : Reads f a l) {i : ℕ} (hlo : a ≤ i) (hhi : i < a + l.length) : f i ≠ none := by
  rw [← Nat.add_sub_cancel' hlo, h.get (by omega)]
  exact Option.some_ne_none _

theorem reads_of_get (h : ∀ j, (hj : j < l.length) → f (a + j) = some (l[j])) : Reads f a l := by
  induction l generalizing a with
  | nil => trivial
  | cons b l ih =>
    refine ⟨h 0 (Nat.succ_pos _), ih fun j hj => ?_⟩
    rw [Nat.add_assoc, Nat.add_comm 1]
    exact h (j + 1) (Nat.succ_lt_succ hj)

theorem reads_getElem? (l : List α) : Reads (fun a => l[a]?) 0 l :=
  reads_of_get fun j hj => by rw [Nat.zero_add, List.getElem?_eq_getElem hj]

/-! ## Scanning -/

section Scan

variable [DecidableEq α]

theorem scanTo_none (h : f a = none) : scanTo f z (n + 1) a = (false, []) := by
  rw [scanTo, h]

theorem scanTo_end (h : f a = some z) : scanTo f z (n + 1) a = (true, [z]) := by
  rw [scanTo, h]
  exact if_pos rfl

theorem scanTo_some (h : f a = some b) (hb : b ≠ z) :
    scanTo f z (n + 1) a = ((scanTo f z n (a + 1)).1, b :: (scanTo f z n (a + 1)).2) := by
  rw [scanTo, h]
  exact if_neg hb

/-- A piece without holes, and what comes after it. -/
theorem scanTo_append (h : Reads f a l) (n : ℕ) : scanTo f z (l.length + n) a =
    if (scanTo f z l.length a).1 = true then scanTo f z l.length a
    else ((scanTo f z n (a + l.length)).1, (scanTo f z l.length a).2 ++ (scanTo f z n (a + l.length)).2) := by
  induction l generalizing a with
  | nil => simp [scanTo]
  | cons b l ih =>
    rw [List.length_cons, Nat.add_right_comm]
    by_cases hb : b = z
    · rw [scanTo_end (hb ▸ h.1), scanTo_end (hb ▸ h.1), if_pos rfl]
    · rw [scanTo_some h.1 hb, scanTo_some h.1 hb, ih h.2, Nat.add_right_comm a 1, Nat.add_assoc a]
      split_ifs with hf
      · rw [hf]
      · rfl

theorem scanTo_string (h : Reads f a l) (hz : z ∉ l) : scanTo f z l.length a = (false, l) := by
  induction l generalizing a with
  | nil => rfl
  | cons b l ih =>
    rw [List.mem_cons, not_or] at hz
    rw [List.length_cons, scanTo_some h.1 (Ne.symm hz.1), ih h.2 hz.2]

/-- A scanTo finds the strings that are there with their terminator. -/
theorem scanTo_eq_true : scanTo f z n a = (true, l') ↔
    ∃ l, l' = l ++ [z] ∧ l.length < n ∧ z ∉ l ∧ Reads f a (l ++ [z]) := by
  constructor
  · intro h
    induction n generalizing a l' with
    | zero => cases h
    | succ n ih =>
      cases hf : f a with
      | none =>
        rw [scanTo_none hf] at h
        cases h
      | some b =>
        by_cases hb : b = z
        · rw [scanTo_end (hb ▸ hf), Prod.mk.injEq] at h
          exact ⟨[], h.2.symm, Nat.succ_pos n, List.not_mem_nil, hb ▸ hf, trivial⟩
        · rw [scanTo_some hf hb, Prod.mk.injEq] at h
          obtain ⟨l, hl, hlen, hz, hreads⟩ := ih (Prod.ext h.1 rfl)
          refine ⟨b :: l, ?_, Nat.succ_lt_succ hlen, ?_, hf, hreads⟩
          · exact h.2.symm.trans (congrArg (b :: ·) hl)
          · rw [List.mem_cons, not_or]
            exact ⟨Ne.symm hb, hz⟩
  · rintro ⟨l, rfl, hlen, hz, hreads⟩
    obtain ⟨k, rfl⟩ := Nat.exists_eq_add_of_lt hlen
    obtain ⟨hl, hend⟩ := reads_concat.mp hreads
    rw [Nat.add_assoc, scanTo_append hl, scanTo_string hl hz, scanTo_end hend]
    rfl

end Scan

/-! ## Two memories -/

/-- In the holes of `f`, `g` has at most `z`. -/
theorem same_strings_iff (hfg : ∀ a b, f a = some b → g a = some b)
    (hz : ∀ a b, f a = none → g a = some b → b = z) (n a : ℕ) :
    (∀ l : List α, l.length < n → z ∉ l → (Reads f a (l ++ [z]) ↔ Reads g a (l ++ [z]))) ↔
      ¬ ∃ l : List α, l.length < n ∧ z ∉ l ∧ Reads f a l ∧ f (a + l.length) = none ∧ g (a + l.length) = some z := by
  have hback : ∀ {a} {l : List α}, z ∉ l → Reads g a l → Reads f a l := by
    intro a l hl hg
    induction l generalizing a with
    | nil => trivial
    | cons b l ih =>
      rw [List.mem_cons, not_or] at hl
      refine ⟨?_, ih hl.2 hg.2⟩
      cases hf : f a with
      | none => exact absurd (hz a b hf hg.1).symm hl.1
      | some c => exact (hfg a c hf).symm.trans hg.1
  constructor
  · rintro h ⟨l, hlen, hl, hreads, hnone, hsome⟩
    have hf := (reads_concat.mp ((h l hlen hl).mpr (reads_concat.mpr ⟨hreads.mono hfg, hsome⟩))).2
    rw [hnone] at hf
    cases hf
  · intro h l hlen hl
    refine ⟨Reads.mono hfg, fun hg => ?_⟩
    obtain ⟨hreads, hend⟩ := reads_concat.mp hg
    refine reads_concat.mpr ⟨hback hl hreads, ?_⟩
    cases hf : f (a + l.length) with
    | none => exact absurd ⟨l, hlen, hl, hback hl hreads, hf, hend⟩ h
    | some c => exact (hfg _ c hf).symm.trans hend

end Xv6
