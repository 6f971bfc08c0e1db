import Mathlib.Computability.Language

/-!
# The matcher of `grep`

`match`, `matchhere` and `matchstar` of user/grep.c. A pointer into a string is the rest of the string, at the
end of which is a NUL (`deref`); the recursion ends since `matchhere` goes on in a shorter pattern and
`matchstar` in a shorter text.

A pattern is read from left to right as a list of items (`items`), each one character or the repetition of
one, after a `^` and before a `$` that are anchors (`Regexp.parse`). Its language is the product of the
languages of its items. `match` finds a word of the language in the text, at the anchors if there are any
(`match_iff`).
-/

open Computability

namespace Xv6

namespace Grep

/-- The character `*`. -/
abbrev STAR : UInt8 := 42

/-- The character `.`. -/
abbrev DOT : UInt8 := 46

/-- The character `$`. -/
abbrev DOLLAR : UInt8 := 36

/-- The character `^`. -/
abbrev CARET : UInt8 := 94

/-- The character at a pointer. -/
def deref (s : List UInt8) : UInt8 :=
  s.headD 0

theorem length_tail_lt {s : List UInt8} (h : deref s ≠ 0) : s.tail.length < s.length := by
  cases s with
  | nil => exact absurd rfl h
  | cons c s => exact Nat.lt_succ_self _

mutual

/-- Search for `re` at the beginning of `text`. -/
def matchhere (re text : List UInt8) : Bool :=
  if deref re = 0 then true
  else if deref re.tail = STAR then matchstar (deref re) re.tail.tail text
  else if deref re = DOLLAR ∧ deref re.tail = 0 then deref text = 0
  else if deref text ≠ 0 ∧ (deref re = DOT ∨ deref re = deref text) then matchhere re.tail text.tail
  else false
termination_by (re.length, text.length, 0)
decreasing_by
  · have hlt := length_tail_lt ‹¬ deref re = 0›
    exact Prod.Lex.left _ _ (by rw [List.length_tail]; omega)
  · exact Prod.Lex.left _ _ (length_tail_lt ‹¬ deref re = 0›)

/-- Search for `c*re` at the beginning of `text`. -/
def matchstar (c : UInt8) (re text : List UInt8) : Bool :=
  if matchhere re text then true
  else if deref text ≠ 0 ∧ (deref text = c ∨ c = DOT) then matchstar c re text.tail
  else false
termination_by (re.length, text.length, 1)
decreasing_by
  · exact Prod.Lex.right _ (Prod.Lex.right _ Nat.zero_lt_one)
  · exact Prod.Lex.right _ (Prod.Lex.left _ _ (length_tail_lt ‹deref text ≠ 0 ∧ _›.1))

end

/-- The loop of `match`, which looks at the empty rest too. -/
def matchFrom (re text : List UInt8) : Bool :=
  if matchhere re text then true
  else if deref text ≠ 0 then matchFrom re text.tail
  else false
termination_by text.length
decreasing_by exact length_tail_lt ‹deref text ≠ 0›

/-- `match`. -/
def matchRe (re text : List UInt8) : Bool :=
  if deref re = CARET then matchhere re.tail text
  else matchFrom re text

/-! ## What a pattern means -/

/-- An item of a pattern. -/
inductive Item
  /-- One character. -/
  | one (c : UInt8)
  /-- Zero or more of a character. -/
  | star (c : UInt8)
  deriving DecidableEq

/-- The items of a pattern : a star belongs to the character before it, unless that is itself a star that
belongs to one, and is a character of its own if there is none. -/
def items : List UInt8 → List Item
  | [] => []
  | [c] => [.one c]
  | c :: d :: re => if d = STAR then .star c :: items re else .one c :: items (d :: re)

/-- What a pattern means. -/
structure Regexp where
  /-- Only at the beginning of the text. -/
  start : Bool
  body : List Item
  /-- Only at its end. -/
  stop : Bool

/-- Whether the items end in a `$`. -/
def anchored (its : List Item) : Bool :=
  its.getLast? = some (.one DOLLAR)

/-- The items without the `$` at the end. -/
def unanchored (its : List Item) : List Item :=
  if anchored its then its.dropLast else its

/-- Read a pattern. -/
def Regexp.parse (re : List UInt8) : Regexp :=
  let its := items (if re.head? = some CARET then re.tail else re)
  ⟨re.head? = some CARET, unanchored its, anchored its⟩

/-- The texts of one character that `c` stands for. -/
def charLanguage (c : UInt8) : Language UInt8 :=
  {w | ∃ x, w = [x] ∧ (c = DOT ∨ x = c)}

/-- The texts an item stands for. -/
def Item.language : Item → Language UInt8
  | .one c => charLanguage c
  | .star c => (charLanguage c)∗

/-- The texts a list of items stands for. -/
def language (its : List Item) : Language UInt8 :=
  (its.map Item.language).prod

/-- The text has a word of the language, at the anchors. -/
def Regexp.Matches (r : Regexp) (text : List UInt8) : Prop :=
  ∃ u v w, text = u ++ (v ++ w) ∧ v ∈ language r.body ∧ (r.start = true → u = []) ∧ (r.stop = true → w = [])

variable {i : Item} {its : List Item} {c x : UInt8} {re text t : List UInt8}

theorem mem_language_cons {v : List UInt8} :
    v ∈ language (i :: its) ↔ ∃ u ∈ i.language, ∃ t ∈ language its, u ++ t = v := by
  rw [language, List.map_cons, List.prod_cons, Language.mem_mul, language]

theorem mem_language_star {v : List UInt8} : v ∈ (Item.star c).language ↔
    v = [] ∨ ∃ x u, v = x :: u ∧ (c = DOT ∨ x = c) ∧ u ∈ (Item.star c).language := by
  rw [Item.language, ← Language.one_add_self_mul_kstar_eq_kstar, Language.mem_add, Language.mem_one,
    Language.mem_mul, Language.one_add_self_mul_kstar_eq_kstar]
  refine or_congr Iff.rfl ⟨?_, ?_⟩
  · rintro ⟨_, ⟨x, rfl, hx⟩, u, hu, rfl⟩
    exact ⟨x, u, rfl, hx, hu⟩
  · rintro ⟨x, u, rfl, hx, hu⟩
    exact ⟨[x], ⟨x, rfl, hx⟩, u, hu, rfl⟩

/-- The text begins with what the items stand for. -/
def Begins (its : List Item) (text : List UInt8) : Prop :=
  ∃ v w, text = v ++ w ∧ v ∈ language (unanchored its) ∧ (anchored its = true → w = [])

theorem begins_nil : Begins [] text :=
  ⟨[], text, rfl, (Language.mem_one []).mpr rfl, fun h => by cases h⟩

theorem begins_dollar : Begins [.one DOLLAR] text ↔ text = [] := by
  refine ⟨?_, ?_⟩
  · rintro ⟨v, w, rfl, hv, hw⟩
    rw [hw rfl, (Language.mem_one v).mp hv]
    rfl
  · rintro rfl
    exact ⟨[], [], rfl, (Language.mem_one []).mpr rfl, fun _ => rfl⟩

theorem anchored_cons (h : i ≠ .one DOLLAR ∨ its ≠ []) :
    anchored (i :: its) = anchored its ∧ unanchored (i :: its) = i :: unanchored its := by
  have hlast : anchored (i :: its) = anchored its := by
    cases its with
    | nil =>
      obtain h | h := h
      · simpa [anchored] using h
      · exact absurd rfl h
    | cons j its => rw [anchored, anchored, List.getLast?_cons_cons]
  refine ⟨hlast, ?_⟩
  rw [unanchored, unanchored, hlast]
  split_ifs with hanch
  · cases its with
    | nil => cases hanch
    | cons j its => rfl
  · rfl

/-- Item by item. -/
theorem begins_cons (h : i ≠ .one DOLLAR ∨ its ≠ []) :
    Begins (i :: its) text ↔ ∃ u t, text = u ++ t ∧ u ∈ i.language ∧ Begins its t := by
  obtain ⟨hanch, hbody⟩ := anchored_cons h
  rw [Begins, hanch, hbody]
  refine ⟨?_, ?_⟩
  · rintro ⟨_, w, rfl, hv, hw⟩
    obtain ⟨u, hu, t, ht, rfl⟩ := mem_language_cons.mp hv
    exact ⟨u, t ++ w, List.append_assoc u t w, hu, t, w, rfl, ht, hw⟩
  · rintro ⟨u, _, rfl, hu, t, w, rfl, ht, hw⟩
    exact ⟨u ++ t, w, (List.append_assoc u t w).symm, mem_language_cons.mpr ⟨u, hu, t, ht, rfl⟩, hw⟩

theorem begins_one (h : c ≠ DOLLAR ∨ its ≠ []) :
    Begins (.one c :: its) text ↔ ∃ x t, text = x :: t ∧ (c = DOT ∨ x = c) ∧ Begins its t := by
  have hne : Item.one c ≠ .one DOLLAR ∨ its ≠ [] := h.imp_left fun hc heq => hc (Item.one.inj heq)
  rw [begins_cons hne]
  refine ⟨?_, ?_⟩
  · rintro ⟨_, t, rfl, ⟨x, rfl, hx⟩, ht⟩
    exact ⟨x, t, rfl, hx, ht⟩
  · rintro ⟨x, t, rfl, hx, ht⟩
    exact ⟨[x], t, rfl, ⟨x, rfl, hx⟩, ht⟩

/-- None of the character, or one and again. -/
theorem begins_star : Begins (.star c :: its) text ↔
    Begins its text ∨ ∃ x t, text = x :: t ∧ (c = DOT ∨ x = c) ∧ Begins (.star c :: its) t := by
  have hcons : ∀ {text}, Begins (.star c :: its) text ↔ _ := begins_cons (.inl (by simp))
  rw [hcons]
  refine ⟨?_, ?_⟩
  · rintro ⟨u, t, rfl, hu, ht⟩
    obtain rfl | ⟨x, u, rfl, hx, hu⟩ := mem_language_star.mp hu
    · exact .inl ht
    · exact .inr ⟨x, u ++ t, rfl, hx, hcons.mpr ⟨u, t, rfl, hu, ht⟩⟩
  · rintro (h | ⟨x, t, rfl, hx, ht⟩)
    · exact ⟨[], text, rfl, mem_language_star.mpr (.inl rfl), h⟩
    · obtain ⟨u, t, rfl, hu, ht⟩ := hcons.mp ht
      exact ⟨x :: u, t, rfl, mem_language_star.mpr (.inr ⟨x, u, rfl, hx, hu⟩), ht⟩

/-! ## The matcher finds it -/

theorem deref_eq_zero (h0 : 0 ∉ text) : deref text = 0 ↔ text = [] := by
  cases text with
  | nil => exact ⟨fun _ => rfl, fun _ => rfl⟩
  | cons x t =>
    refine ⟨fun h => absurd (h ▸ List.mem_cons_self) h0, fun h => ?_⟩
    cases h

/-- A repetition, if the matcher is right about the rest of the pattern. -/
theorem matchstar_iff (hre : ∀ text, 0 ∉ text → (matchhere re text = true ↔ Begins its text)) (h0 : 0 ∉ text) :
    matchstar c re text = true ↔ Begins (.star c :: its) text := by
  induction text with
  | nil =>
    rw [matchstar, begins_star, ← hre [] h0]
    simp [deref]
  | cons x t ih =>
    have hx : deref (x :: t) ≠ 0 := fun h => by cases (deref_eq_zero h0).mp h
    have hrest := ih fun h => h0 (List.mem_cons_of_mem _ h)
    rw [matchstar, begins_star, ← hre (x :: t) h0]
    by_cases hhere : matchhere re (x :: t) = true
    · simp [hhere]
    · rw [if_neg hhere, or_iff_right hhere]
      split_ifs with hc
      · rw [List.tail_cons, hrest]
        exact ⟨fun h => ⟨x, t, rfl, hc.2.symm, h⟩, by rintro ⟨_, _, ⟨⟩, _, h⟩; exact h⟩
      · refine ⟨fun h => h.elim, ?_⟩
        rintro ⟨_, _, ⟨⟩, hor, _⟩
        exact absurd ⟨hx, hor.symm⟩ hc

/-- One character that no star follows and that is not the anchor. -/
theorem matchhere_cons (hc : c ≠ 0) (hstar : deref re ≠ STAR) (hdollar : ¬ (c = DOLLAR ∧ deref re = 0))
    (h0 : 0 ∉ text) : matchhere (c :: re) text = true ↔
      ∃ x t, text = x :: t ∧ (c = DOT ∨ x = c) ∧ matchhere re t = true := by
  rw [matchhere, if_neg (show ¬ deref (c :: re) = 0 from hc), List.tail_cons, if_neg hstar,
    if_neg (show ¬ (deref (c :: re) = DOLLAR ∧ deref re = 0) from hdollar)]
  cases text with
  | nil =>
    rw [if_neg fun h => h.1 rfl]
    refine ⟨fun h => absurd h Bool.false_ne_true, ?_⟩
    rintro ⟨_, _, ⟨⟩, _⟩
  | cons x t =>
    have hx : deref (x :: t) ≠ 0 := fun h => by cases (deref_eq_zero h0).mp h
    split_ifs with h
    · exact ⟨fun hrest => ⟨x, t, rfl, h.2.imp_right Eq.symm, hrest⟩, by rintro ⟨_, _, ⟨⟩, _, h⟩; exact h⟩
    · refine ⟨fun h => h.elim, ?_⟩
      rintro ⟨_, _, ⟨⟩, hor, _⟩
      exact absurd ⟨hx, hor.imp_right Eq.symm⟩ h

theorem matchhere_iff (hre : 0 ∉ re) (h0 : 0 ∉ text) : matchhere re text = true ↔ Begins (items re) text := by
  induction re using items.induct generalizing text with
  | case1 =>
    rw [matchhere]
    exact ⟨fun _ => begins_nil, fun _ => rfl⟩
  | case2 c =>
    have hc : c ≠ 0 := fun h => hre (h ▸ List.mem_cons_self)
    rw [items]
    by_cases hdollar : c = DOLLAR
    · rw [hdollar, begins_dollar, ← deref_eq_zero h0, matchhere, if_neg (by decide), if_neg (by decide),
        if_pos (by decide), decide_eq_true_iff]
    · rw [matchhere_cons hc (by decide) (fun h => hdollar h.1) h0, begins_one (.inl hdollar)]
      simp [matchhere, deref, begins_nil]
  | case3 c re ih =>
    have hc : c ≠ 0 := fun h => hre (h ▸ List.mem_cons_self)
    have hrest : 0 ∉ re := fun h => hre (List.mem_cons_of_mem _ (List.mem_cons_of_mem _ h))
    rw [items, if_pos rfl, ← matchstar_iff (fun text h => ih hrest h) h0, matchhere,
      if_neg (show ¬ deref (c :: STAR :: re) = 0 from hc), if_pos (show deref (c :: STAR :: re).tail = STAR from rfl)]
    rfl
  | case4 c d re hd ih =>
    have hc : c ≠ 0 := fun h => hre (h ▸ List.mem_cons_self)
    have hrest : 0 ∉ d :: re := fun h => hre (List.mem_cons_of_mem _ h)
    have hd0 : d ≠ 0 := fun h => hrest (h ▸ List.mem_cons_self)
    have hne : items (d :: re) ≠ [] := by
      cases re with
      | nil => rw [items]; simp
      | cons e re => rw [items]; split_ifs <;> simp
    rw [items, if_neg hd, begins_one (.inr hne), matchhere_cons hc (show deref (d :: re) ≠ STAR from hd)
      (fun h => hd0 h.2) h0]
    refine exists_congr fun x => exists_congr fun t => and_congr_right fun heq => and_congr_right fun _ => ?_
    exact ih hrest fun h => h0 (heq ▸ List.mem_cons_of_mem _ h)

theorem matchFrom_iff (hre : 0 ∉ re) (h0 : 0 ∉ text) :
    matchFrom re text = true ↔ ∃ u t, text = u ++ t ∧ Begins (items re) t := by
  induction text with
  | nil =>
    rw [matchFrom, if_neg (show ¬ deref [] ≠ 0 from fun h => h rfl)]
    simp [matchhere_iff hre h0]
  | cons x t ih =>
    have hx : deref (x :: t) ≠ 0 := fun h => by cases (deref_eq_zero h0).mp h
    have hrest := ih fun h => h0 (List.mem_cons_of_mem _ h)
    rw [matchFrom, if_pos hx, List.tail_cons]
    have hhere := matchhere_iff hre h0
    split_ifs with h
    · exact ⟨fun _ => ⟨[], x :: t, rfl, hhere.mp h⟩, fun _ => rfl⟩
    · rw [hrest]
      refine ⟨?_, ?_⟩
      · rintro ⟨u, t, rfl, ht⟩
        exact ⟨x :: u, t, rfl, ht⟩
      · rintro ⟨u, t', heq, ht⟩
        obtain ⟨rfl, rfl⟩ | ⟨u, rfl, rfl⟩ := List.cons_eq_append_iff.mp heq
        · exact absurd (hhere.mpr ht) h
        · exact ⟨u, t', rfl, ht⟩

/-- `match` decides whether the text has a word of the pattern's language, at the anchors. -/
theorem match_iff (hre : 0 ∉ re) (h0 : 0 ∉ text) : matchRe re text = true ↔ (Regexp.parse re).Matches text := by
  have hcaret : deref re = CARET ↔ re.head? = some CARET := by
    cases re with
    | nil => exact ⟨fun h => absurd h (by decide), fun h => by cases h⟩
    | cons c re => exact ⟨congrArg some, Option.some.inj⟩
  simp only [matchRe, hcaret, Regexp.parse, Regexp.Matches]
  split_ifs with h
  · rw [matchhere_iff (fun hmem => hre (List.mem_of_mem_tail hmem)) h0]
    refine ⟨?_, ?_⟩
    · rintro ⟨v, w, rfl, hv, hw⟩
      exact ⟨[], v, w, rfl, hv, fun _ => rfl, hw⟩
    · rintro ⟨u, v, w, rfl, hv, hu, hw⟩
      rw [hu (decide_eq_true h)]
      exact ⟨v, w, rfl, hv, hw⟩
  · rw [matchFrom_iff hre h0]
    refine ⟨?_, ?_⟩
    · rintro ⟨u, _, rfl, v, w, rfl, hv, hw⟩
      exact ⟨u, v, w, rfl, hv, fun hu => absurd (of_decide_eq_true hu) h, hw⟩
    · rintro ⟨u, v, w, rfl, hv, _, hw⟩
      exact ⟨u, v ++ w, rfl, v, w, rfl, hv, hw⟩

/-- The pattern `.**$` : anything, then a star, at the end. -/
theorem match_iff_star : 0 ∉ [DOT, STAR, STAR, DOLLAR] ∧
    (matchRe [DOT, STAR, STAR, DOLLAR] [97, STAR] = true ↔
      (⟨false, [.star DOT, .one STAR], true⟩ : Regexp).Matches [97, STAR]) :=
  ⟨by decide, @match_iff [DOT, STAR, STAR, DOLLAR] [97, STAR] (by decide) (by decide)⟩

end Grep

end Xv6
