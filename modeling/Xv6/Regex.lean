import Mathlib.Logic.Function.Basic
import Mathlib.Tactic.SplitIfs

/-!
# Patterns and a backtracking matcher

Regular expressions with named groups, and the matcher that reads them as a backtracking engine
does : a repetition takes as many characters as it can and gives them back one by one, an optional
part is tried before it is left out, and a search takes the first place where the pattern matches.
`Pattern.exec` has the rest of the work as its continuation.

That a match succeeds is shown piece by piece (`exec_lit_append`, `exec_many_append`); that none does
from what the pattern can match at all (`Pattern.Matches`, `exec_eq_none`).
-/

namespace Xv6

/-- Regular expressions with groups named by `ι`; what is repeated is a class of characters. -/
inductive Pattern (ι : Type*)
  | eps
  | one (p : Char → Bool)
  | many (p : Char → Bool)
  | seq (a b : Pattern ι)
  | opt (a : Pattern ι)
  | group (i : ι) (a : Pattern ι)

namespace Pattern

variable {ι β : Type*}

/-- The text itself. -/
def lit : List Char → Pattern ι
  | [] => eps
  | c :: w => seq (one (· == c)) (lit w)

/-- One or more of a class. -/
def plus (p : Char → Bool) : Pattern ι :=
  seq (one p) (many p)

/-- The patterns one after the other. -/
def all (as : List (Pattern ι)) : Pattern ι :=
  as.foldr seq eps

/-- Go on after as many characters of the class as possible, else after one less. -/
def execMany (p : Char → Bool) (k : List Char → Option β) : List Char → Option β
  | [] => k []
  | c :: s => if p c then (execMany p k s).or (k (c :: s)) else k (c :: s)

/-- Match the pattern at the start of `s`, with the groups `g` so far, and go on with `k`. -/
def exec [DecidableEq ι] : Pattern ι → List Char → (ι → Option (List Char)) →
    (List Char → (ι → Option (List Char)) → Option β) → Option β
  | eps, s, g, k => k s g
  | one _, [], _, _ => none
  | one p, c :: s, g, k => if p c then k s g else none
  | many p, s, g, k => execMany p (fun t => k t g) s
  | seq a b, s, g, k => a.exec s g fun t g => b.exec t g k
  | opt a, s, g, k => (a.exec s g k).or (k s g)
  | group i a, s, g, k => a.exec s g fun t g =>
    k t (Function.update g i (some (s.take (s.length - t.length))))

/-- The groups of the match at the start of `s`. -/
def matchAt [DecidableEq ι] (a : Pattern ι) (s : List Char) : Option (ι → Option (List Char)) :=
  a.exec s (fun _ => none) fun _ g => some g

/-- The groups of the leftmost match. -/
def search [DecidableEq ι] (a : Pattern ι) : List Char → Option (ι → Option (List Char))
  | [] => a.matchAt []
  | c :: s => (a.matchAt (c :: s)).or (search a s)

/-- The texts a pattern matches. -/
inductive Matches : Pattern ι → List Char → Prop
  | eps : Matches eps []
  | one {p : Char → Bool} {c : Char} (h : p c = true) : Matches (one p) [c]
  | many {p : Char → Bool} {w : List Char} (h : ∀ c ∈ w, p c = true) : Matches (many p) w
  | seq {a b : Pattern ι} {u v : List Char} (hu : Matches a u) (hv : Matches b v) :
    Matches (seq a b) (u ++ v)
  | skip {a : Pattern ι} : Matches (opt a) []
  | take {a : Pattern ι} {u : List Char} (h : Matches a u) : Matches (opt a) u
  | group {i : ι} {a : Pattern ι} {u : List Char} (h : Matches a u) : Matches (group i a) u

/-! ## What a pattern can match -/

theorem matches_lit {w u : List Char} (h : (lit w : Pattern ι).Matches u) : u = w := by
  induction w generalizing u with
  | nil =>
    cases h
    rfl
  | cons c w ih =>
    cases h with
    | seq hu hv =>
      cases hu with
      | one hc => rw [ih hv, beq_iff_eq.mp hc, List.singleton_append]

theorem matches_plus {p : Char → Bool} {u : List Char} (h : (plus p : Pattern ι).Matches u) :
    u ≠ [] ∧ ∀ c ∈ u, p c = true := by
  cases h with
  | seq hu hv =>
    cases hu with
    | one hc =>
      cases hv with
      | many hw => exact ⟨by simp, by simpa [hc] using hw⟩

theorem matches_group {i : ι} {a : Pattern ι} {u : List Char} (h : (group i a).Matches u) :
    a.Matches u := by
  cases h with
  | group h => exact h

theorem matches_many {p : Char → Bool} {u : List Char} (h : (many p : Pattern ι).Matches u) :
    ∀ c ∈ u, p c = true := by
  cases h with
  | many h => exact h

theorem matches_all_cons {a : Pattern ι} {as : List (Pattern ι)} {w : List Char}
    (h : (all (a :: as)).Matches w) : ∃ u v, w = u ++ v ∧ a.Matches u ∧ (all as).Matches v := by
  cases h with
  | seq hu hv => exact ⟨_, _, rfl, hu, hv⟩

variable [DecidableEq ι] {a : Pattern ι} {s t w : List Char} {g : ι → Option (List Char)}
  {k : List Char → (ι → Option (List Char)) → Option β} {p : Char → Bool}

theorem execMany_eq_none {k : List Char → Option β}
    (h : ∀ u t, s = u ++ t → (∀ c ∈ u, p c = true) → k t = none) : execMany p k s = none := by
  induction s with
  | nil => exact h [] [] rfl (by simp)
  | cons c s ih =>
    have hhere : k (c :: s) = none := h [] (c :: s) rfl (by simp)
    unfold execMany
    split_ifs with hc
    · rw [ih fun u t hs hu => h (c :: u) t (by rw [hs, List.cons_append]) (by simpa [hc] using hu), hhere]
      rfl
    · exact hhere

/-- The matcher finds only what the pattern matches. -/
theorem exec_eq_none (h : ∀ u t, s = u ++ t → a.Matches u → ∀ g, k t g = none) :
    a.exec s g k = none := by
  induction a generalizing s g k with
  | eps => exact h [] s rfl .eps g
  | one p =>
    cases s with
    | nil => rfl
    | cons c s =>
      unfold exec
      split_ifs with hc
      · exact h [c] s rfl (.one hc) g
      · rfl
  | many p => exact execMany_eq_none fun u t hs hu => h u t hs (.many hu) g
  | seq a b iha ihb =>
    refine iha fun u t hs hu g => ihb fun v t' ht hv g => ?_
    exact h (u ++ v) t' (by rw [hs, ht, List.append_assoc]) (.seq hu hv) g
  | opt a ih =>
    unfold exec
    rw [ih fun u t hs hu => h u t hs (.take hu), h [] s rfl .skip]
    rfl
  | group i a ih => exact ih fun u t hs hu g => h u t hs (.group hu) _

theorem matchAt_eq_none (h : ∀ u t, s = u ++ t → ¬ a.Matches u) : a.matchAt s = none :=
  exec_eq_none fun u t hs hu => absurd hu (h u t hs)

/-- The search passes over the places where the pattern does not match. -/
theorem search_append (h : ∀ u v, w = u ++ v → v ≠ [] → a.matchAt (v ++ s) = none) :
    a.search (w ++ s) = a.search s := by
  induction w with
  | nil => rfl
  | cons c w ih =>
    have hhere : a.matchAt (c :: (w ++ s)) = none := h [] (c :: w) rfl (by simp)
    rw [List.cons_append, search, hhere, Option.none_or]
    exact ih fun u v hw => h (c :: u) v (by rw [hw, List.cons_append])

theorem search_of_matchAt (h : a.matchAt s = some g) : a.search s = some g := by
  cases s with
  | nil => exact h
  | cons c s => rw [search, h, Option.some_or]

/-! ## A match, piece by piece -/

@[simp] theorem exec_all_nil : (all [] : Pattern ι).exec s g k = k s g := rfl

@[simp] theorem exec_all_cons {as : List (Pattern ι)} :
    (all (a :: as)).exec s g k = a.exec s g fun t g => (all as).exec t g k := rfl

/-- An optional part is taken, if it and the rest match. -/
theorem exec_opt_of_some {x : β} (h : a.exec s g k = some x) : (opt a).exec s g k = some x := by
  rw [exec, h, Option.some_or]

theorem exec_opt_of_none (h : a.exec s g k = none) : (opt a).exec s g k = k s g := by
  rw [exec, h, Option.none_or]

@[simp] theorem exec_lit_append : (lit w).exec (w ++ s) g k = k s g := by
  induction w with
  | nil => rfl
  | cons c w ih => simpa [lit, exec] using ih

@[simp] theorem exec_lit_self : (lit w).exec w g k = k [] g := by
  simpa using exec_lit_append (w := w) (s := []) (g := g) (k := k)

theorem execMany_append {k : List Char → Option β} {x : β} (hw : ∀ c ∈ w, p c = true)
    (ht : ∀ c ∈ t.head?, p c = false) (hk : k t = some x) : execMany p k (w ++ t) = some x := by
  induction w with
  | nil =>
    cases t with
    | nil => exact hk
    | cons c t =>
      have hc : p c = false := ht c rfl
      simpa [execMany, hc] using hk
  | cons c w ih =>
    have hc : p c = true := hw c List.mem_cons_self
    simp only [List.cons_append, execMany, hc, if_true]
    rw [ih fun c hc => hw c (List.mem_cons_of_mem _ hc)]
    rfl

/-- A repetition takes all the characters of its class, if the rest then matches. -/
theorem exec_many_append {x : β} (hw : ∀ c ∈ w, p c = true) (ht : ∀ c ∈ t.head?, p c = false)
    (hk : k t g = some x) : (many p).exec (w ++ t) g k = some x :=
  execMany_append hw ht hk

theorem exec_plus_append {x : β} (hne : w ≠ []) (hw : ∀ c ∈ w, p c = true)
    (ht : ∀ c ∈ t.head?, p c = false) (hk : k t g = some x) : (plus p).exec (w ++ t) g k = some x := by
  obtain ⟨c, w, rfl⟩ := List.exists_cons_of_ne_nil hne
  have hc : p c = true := hw c List.mem_cons_self
  simp only [plus, exec, List.cons_append, hc, if_true]
  exact execMany_append (fun c hc => hw c (List.mem_cons_of_mem _ hc)) ht hk

/-- A group has the text that its pattern has taken. -/
theorem exec_group_append {i : ι} {x : β} (hne : w ≠ []) (hw : ∀ c ∈ w, p c = true)
    (ht : ∀ c ∈ t.head?, p c = false) (hk : k t (Function.update g i (some w)) = some x) :
    (group i (plus p)).exec (w ++ t) g k = some x := by
  refine exec_plus_append hne hw ht ?_
  simpa using hk

end Pattern

/-- A text is in one way a text of a class and what comes after it. -/
theorem append_inj_of_class {p : Char → Bool} {u v s t : List Char} (h : u ++ s = v ++ t)
    (hu : ∀ c ∈ u, p c = true) (hv : ∀ c ∈ v, p c = true) (hs : ∀ c ∈ s.head?, p c = false)
    (ht : ∀ c ∈ t.head?, p c = false) : u = v ∧ s = t := by
  induction u generalizing v with
  | nil =>
    cases v with
    | nil => exact ⟨rfl, h⟩
    | cons c v =>
      rw [List.nil_append] at h
      have hc := hs c (by rw [h]; rfl)
      rw [hv c List.mem_cons_self] at hc
      cases hc
  | cons c u ih =>
    cases v with
    | nil =>
      rw [List.nil_append] at h
      have hc := ht c (by rw [← h]; rfl)
      rw [hu c List.mem_cons_self] at hc
      cases hc
    | cons d v =>
      rw [List.cons_append, List.cons_append, List.cons.injEq] at h
      obtain ⟨rfl, rfl⟩ := ih h.2 (fun c hc => hu c (List.mem_cons_of_mem _ hc))
        fun c hc => hv c (List.mem_cons_of_mem _ hc)
      exact ⟨by rw [h.1], rfl⟩

end Xv6
