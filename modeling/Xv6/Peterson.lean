import Mathlib.Logic.Function.Basic

/-!
# Peterson's lock with any number of clients on each side

Peterson's lock has two sides. A client enters on a side : it raises the side's flag,
gives the turn to the other side, and waits while the other flag is up and the turn is the
other side's; it leaves by lowering its flag. The flag and the turn are read by two
separate loads. Nothing keeps two clients from entering on one side, and the lock then
fails : the first to leave lowers the flag of both.

`Lock.Step` is the protocol for any set of clients. What survives of mutual exclusion is a
statement about a set `E` of clients that are alone on their sides (`Lock.Sole`). For such
clients `Lock.Fair` is kept by every step of every client, in `E` or not (`Step.fair`), and
no two clients of `E` are inside at once (`Lock.Fair.exclusive`). The set may grow by
clients that are outside (`Lock.Fair.extend`).
-/

set_option linter.unusedSectionVars false

namespace Xv6

open Function (update_self update_of_ne)

/-- The two sides of the lock. -/
inductive Side
  | zero
  | one
  deriving DecidableEq, Repr

namespace Side

/-- The opposite side. -/
def other : Side → Side
  | zero => one
  | one => zero

@[simp] theorem other_other (s : Side) : s.other.other = s := by
  cases s <;> rfl

theorem other_ne (s : Side) : s.other ≠ s := by
  cases s <;> decide

theorem eq_other_of_ne {s t : Side} (h : t ≠ s) : t = s.other := by
  cases s <;> cases t <;> simp_all [other]

end Side

/-- Where a client is in the protocol, and on which side. -/
inductive Loc
  /-- Not entering, not inside. -/
  | out
  /-- Its flag is raised, the turn not yet given away. -/
  | flagged (s : Side)
  /-- About to load the other flag. -/
  | waiting (s : Side)
  /-- The other flag was up; about to load the turn. -/
  | tested (s : Side)
  /-- Past the wait, its flag not yet lowered. -/
  | inside (s : Side)
  deriving DecidableEq, Repr

namespace Loc

/-- The side whose flag the client has raised. -/
def side : Loc → Option Side
  | out => none
  | flagged s | waiting s | tested s | inside s => some s

/-- The client has given the turn away on entering side `s`. -/
def Past (s : Side) (l : Loc) : Prop :=
  l = waiting s ∨ l = tested s ∨ l = inside s

theorem Past.side {s : Side} {l : Loc} (h : l.Past s) : l.side = some s := by
  rcases h with rfl | rfl | rfl <;> rfl

end Loc

/-- The flags and the turn, and where each client is. -/
structure Lock (P : Type*) where
  flag : Side → Bool
  turn : Side
  loc : P → Loc

namespace Lock

variable {P : Type*} [DecidableEq P]

/-- Client `p` moves to `l`. -/
def move (k : Lock P) (p : P) (l : Loc) : Lock P :=
  { k with loc := Function.update k.loc p l }

/-- One load or store of one client. The label of a step that raises a flag is the client
and the side. -/
inductive Step : Lock P → Option (P × Side) → Lock P → Prop
  | raise {k : Lock P} (p : P) (s : Side) (h : k.loc p = .out) :
    Step k (some (p, s)) { k.move p (.flagged s) with flag := Function.update k.flag s true }
  | give {k : Lock P} (p : P) (s : Side) (h : k.loc p = .flagged s) :
    Step k none { k.move p (.waiting s) with turn := s.other }
  | skip {k : Lock P} (p : P) (s : Side) (h : k.loc p = .waiting s)
    (hf : k.flag s.other = false) : Step k none (k.move p (.inside s))
  | test {k : Lock P} (p : P) (s : Side) (h : k.loc p = .waiting s)
    (hf : k.flag s.other = true) : Step k none (k.move p (.tested s))
  | retry {k : Lock P} (p : P) (s : Side) (h : k.loc p = .tested s) (ht : k.turn = s.other) :
    Step k none (k.move p (.waiting s))
  | pass {k : Lock P} (p : P) (s : Side) (h : k.loc p = .tested s) (ht : k.turn ≠ s.other) :
    Step k none (k.move p (.inside s))
  | lower {k : Lock P} (p : P) (s : Side) (h : k.loc p = .inside s) :
    Step k none { k.move p .out with flag := Function.update k.flag s false }

/-- No other client is on the side of a client of `E`. -/
def Sole (E : P → Prop) (k : Lock P) : Prop :=
  ∀ p q s, E p → (k.loc p).side = some s → (k.loc q).side = some s → p = q

/-- What the protocol keeps of the clients of `E` : the flag of their side is up, and while
one is inside, an opposite one past its turn store has left the turn to it. -/
structure Fair (E : P → Prop) (k : Lock P) : Prop where
  flag : ∀ p s, E p → (k.loc p).side = some s → k.flag s = true
  turn : ∀ p q s, E p → E q → k.loc p = .inside s → (k.loc q).Past s.other → k.turn = s

variable {E : P → Prop} {k k' : Lock P} {e : Option (P × Side)}

/-- Two clients of `E` inside at once are one client. -/
theorem Fair.exclusive (hf : Fair E k) (hs : Sole E k) {p q : P} {s t : Side} (hp : E p)
    (hq : E q) (hpi : k.loc p = .inside s) (hqi : k.loc q = .inside t) : p = q := by
  by_cases hst : t = s
  · subst hst
    exact hs p q t hp (by rw [hpi]; rfl) (by rw [hqi]; rfl)
  · exfalso
    obtain rfl := Side.eq_other_of_ne hst
    have h1 := hf.turn p q s hp hq hpi (Or.inr (Or.inr hqi))
    have h2 := hf.turn q p s.other hq hp hqi (by rw [Side.other_other]; exact Or.inr (Or.inr hpi))
    exact Side.other_ne s (h2.symm.trans h1)

/-- Clients that are outside may join `E`. -/
theorem Fair.extend {E' : P → Prop} (hf : Fair E k)
    (h : ∀ p, E' p → E p ∨ k.loc p = .out) : Fair E' k := by
  have hin : ∀ p s, E' p → (k.loc p).side = some s → E p := by
    intro p s hp hs
    rcases h p hp with hE | hout
    · exact hE
    · rw [hout] at hs
      cases hs
  refine ⟨fun p s hp hs => hf.flag p s (hin p s hp hs) hs, fun p q s hp hq hpi hqp => ?_⟩
  exact hf.turn p q s (hin p s hp (by rw [hpi]; rfl)) (hin q _ hq hqp.side) hpi hqp

theorem fair_of_out (h : ∀ p, k.loc p = .out) : Fair E k := by
  refine ⟨fun p s _ hs => ?_, fun p q s _ _ hpi _ => ?_⟩
  · rw [h p] at hs
    cases hs
  · rw [h p] at hpi
    cases hpi

/-- A client that moves between places of one side, neither of them new to `Past`, changes
nothing for the flags; for the turn it must enter rightly. -/
theorem Fair.move (hf : Fair E k) {p : P} {s : Side} {l : Loc} (hp : (k.loc p).Past s)
    (hl : l.Past s)
    (hin : l = .inside s → E p → ∀ q, E q → (k.loc q).Past s.other → k.turn = s) :
    Fair E (k.move p l) := by
  refine ⟨fun q t hq hs => ?_, fun q r t hq hr hqi hrp => ?_⟩
  · by_cases h : q = p
    · subst h
      simp only [Lock.move, update_self] at hs
      rw [hl.side] at hs
      exact hf.flag q t hq (by rw [hp.side, hs])
    · simp only [Lock.move, update_of_ne h] at hs
      exact hf.flag q t hq hs
  · have hrp' : (k.loc r).Past t.other := by
      by_cases h : r = p
      · subst h
        simp only [Lock.move, update_self] at hrp
        have : s = t.other := by
          have h1 := hrp.side
          rw [hl.side] at h1
          exact Option.some.inj h1
        rw [← this]
        exact hp
      · simpa only [Lock.move, update_of_ne h] using hrp
    by_cases h : q = p
    · subst h
      simp only [Lock.move, update_self] at hqi
      have hst : s = t := by
        have h1 := hl.side
        rw [hqi] at h1
        exact (Option.some.inj h1).symm
      subst hst
      exact hin hqi hq r hr hrp'
    · simp only [Lock.move, update_of_ne h] at hqi
      exact hf.turn q r t hq hr hqi hrp'

/-- A client alone on its side keeps the flag of that side when another one lowers its own. -/
theorem Sole.ne_side (hs : Sole E k) {p q : P} {s t : Side} (hp : E p) (hpq : q ≠ p)
    (hps : (k.loc p).side = some s) (hqt : (k.loc q).side = some t) : s ≠ t := by
  rintro rfl
  exact hpq (hs p q s hp hps hqt).symm

/-- A client's side after a step is its side before, unless it raised the flag. -/
theorem Step.side (h : Step k e k') {p : P} {s : Side} (hp : (k'.loc p).side = some s) :
    (k.loc p).side = some s ∨ e = some (p, s) := by
  have key : ∀ {q : P} {l : Loc}, ((k.move q l).loc p).side = some s →
      (p = q ∧ l.side = some s) ∨ (k.loc p).side = some s := by
    intro q l h
    by_cases hpq : p = q
    · subst hpq
      exact Or.inl ⟨rfl, by simpa [Lock.move] using h⟩
    · exact Or.inr (by simpa [Lock.move, update_of_ne hpq] using h)
  cases h with
  | raise q t hq =>
    rcases key hp with ⟨rfl, h⟩ | h
    · exact Or.inr (by rw [Option.some.inj h])
    · exact Or.inl h
  | lower q t hq =>
    rcases key hp with ⟨rfl, h⟩ | h
    · cases h
    · exact Or.inl h
  | give q t hq | skip q t hq _ | test q t hq _ | retry q t hq _ | pass q t hq _ =>
    left
    rcases key hp with ⟨rfl, h⟩ | h
    · rw [hq]
      exact h
    · exact h

/-- If no client raises a flag that another client has up, clients stay alone. -/
theorem Step.sole (h : Step k e k') (hs : Sole E k)
    (he : ∀ p s, e = some (p, s) → ∀ q, q ≠ p → (k.loc q).side ≠ some s) : Sole E k' := by
  intro p q s hp hps hqs
  by_contra hne
  rcases h.side hps with h1 | h1 <;> rcases h.side hqs with h2 | h2
  · exact hne (hs p q s hp h1 h2)
  · exact he q s h2 p hne h1
  · exact he p s h1 q (Ne.symm hne) h2
  · rw [h1, Option.some.injEq, Prod.mk.injEq] at h2
    exact hne h2.1

/-- Every step of every client keeps `Fair`. -/
theorem Step.fair (h : Step k e k') (hs : Sole E k) (hf : Fair E k) : Fair E k' := by
  cases h with
  | raise p s hp =>
    refine ⟨fun q t hq hqs => ?_, fun q r t hq hr hqi hrp => ?_⟩
    · by_cases h : q = p
      · subst h
        simp only [Lock.move, update_self, Loc.side, Option.some.injEq] at hqs
        simp [hqs]
      · simp only [Lock.move, update_of_ne h] at hqs
        have := hf.flag q t hq hqs
        by_cases ht : t = s <;> simp [Function.update, ht, this]
    · have hqp : q ≠ p := by
        rintro rfl
        simp [Lock.move] at hqi
      have hrp' : r ≠ p := by
        rintro rfl
        simp [Lock.move, Loc.Past] at hrp
      simp only [Lock.move, update_of_ne hqp] at hqi
      simp only [Lock.move, update_of_ne hrp'] at hrp
      exact hf.turn q r t hq hr hqi hrp
  | give p s hp =>
    refine ⟨fun q t hq hqs => ?_, fun q r t hq hr hqi hrp => ?_⟩
    · by_cases h : q = p
      · subst h
        simp only [Lock.move, update_self, Loc.side] at hqs
        exact hf.flag q t hq (by rw [hp]; exact hqs)
      · simp only [Lock.move, update_of_ne h] at hqs
        exact hf.flag q t hq hqs
    · have hqp : q ≠ p := by
        rintro rfl
        simp [Lock.move] at hqi
      simp only [Lock.move, update_of_ne hqp] at hqi
      have hts : t ≠ s := hs.ne_side hq hqp.symm (by rw [hqi]; rfl) (by rw [hp]; rfl)
      exact (Side.eq_other_of_ne hts).symm
  | skip p s hp hfl =>
    refine hf.move (Or.inl hp) (Or.inr (Or.inr rfl)) fun _ _ q hq hqp => ?_
    have := hf.flag q _ hq hqp.side
    rw [hfl] at this
    cases this
  | test p s hp hfl => exact hf.move (Or.inl hp) (Or.inr (Or.inl rfl)) (by simp)
  | retry p s hp ht => exact hf.move (Or.inr (Or.inl hp)) (Or.inl rfl) (by simp)
  | pass p s hp ht =>
    refine hf.move (Or.inr (Or.inl hp)) (Or.inr (Or.inr rfl)) fun _ _ _ _ _ => ?_
    simpa using Side.eq_other_of_ne ht
  | lower p s hp =>
    refine ⟨fun q t hq hqs => ?_, fun q r t hq hr hqi hrp => ?_⟩
    · have hqp : q ≠ p := by
        rintro rfl
        simp [Lock.move, Loc.side] at hqs
      simp only [Lock.move, update_of_ne hqp] at hqs
      have hts : t ≠ s := hs.ne_side hq hqp.symm hqs (by rw [hp]; rfl)
      simpa only [update_of_ne hts] using hf.flag q t hq hqs
    · have hqp : q ≠ p := by
        rintro rfl
        simp [Lock.move] at hqi
      have hrp' : r ≠ p := by
        rintro rfl
        simp [Lock.move, Loc.Past] at hrp
      simp only [Lock.move, update_of_ne hqp] at hqi
      simp only [Lock.move, update_of_ne hrp'] at hrp
      exact hf.turn q r t hq hr hqi hrp

end Lock

end Xv6
