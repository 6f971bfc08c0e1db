import Mathlib.Init

/-!
# Programs that end without an exception

Programs with a state and exceptions are functions `σ → Except ε (α × σ)`. `Ends x s Q` says that `x`, run
from the state `s`, ends without an exception and that its result and its last state meet `Q`. The rules
take a program apart along its text : a program that is bound to another one (`Ends.bind`), a read or a write
of the state, a return. A specification of a function is an `Ends` for every state it may be called in, and
its callers use that and do not look into the function.

`Outcome x s Q E` is for programs that may well end with an exception : if they do, it meets `E`.
-/

namespace Xv6

variable {σ ε α β : Type}

/-- From `s`, `x` ends without an exception, and the result and the last state meet `Q`. -/
def Ends (x : StateT σ (Except ε) α) (s : σ) (Q : α → σ → Prop) : Prop :=
  ∃ a s', x s = .ok (a, s') ∧ Q a s'

namespace Ends

variable {x : StateT σ (Except ε) α} {f : α → StateT σ (Except ε) β} {s : σ} {Q R : α → σ → Prop}
  {S : β → σ → Prop}

theorem mono (h : Ends x s Q) (hQR : ∀ a s', Q a s' → R a s') : Ends x s R := by
  obtain ⟨a, s', hx, hQ⟩ := h
  exact ⟨a, s', hx, hQR a s' hQ⟩

/-- A run that is known is the one that `Ends` speaks of. -/
theorem elim {a : α} {s' : σ} (h : Ends x s Q) (hx : x s = .ok (a, s')) : Q a s' := by
  obtain ⟨b, t, hx', hQ⟩ := h
  rw [hx] at hx'
  cases hx'
  exact hQ

theorem pure {a : α} (h : Q a s) : Ends (Pure.pure a : StateT σ (Except ε) α) s Q :=
  ⟨a, s, rfl, h⟩

/-- What `f` does from where `x` ends. -/
theorem bind (hx : Ends x s Q) (hf : ∀ a s', Q a s' → Ends (f a) s' S) : Ends (x >>= f) s S := by
  obtain ⟨a, s', hx, hQ⟩ := hx
  obtain ⟨b, t, hf, hS⟩ := hf a s' hQ
  refine ⟨b, t, ?_, hS⟩
  change (x s >>= fun p => f p.1 p.2) = _
  rw [hx]
  exact hf

theorem read {Q : σ → σ → Prop} (h : Q s s) : Ends (get : StateT σ (Except ε) σ) s Q :=
  ⟨s, s, rfl, h⟩

theorem write {g : σ → σ} {Q : PUnit → σ → Prop} (h : Q ⟨⟩ (g s)) :
    Ends (modify g : StateT σ (Except ε) PUnit) s Q :=
  ⟨⟨⟩, g s, rfl, h⟩

/-! A read or a write at the beginning of a program is gone over at once. -/

theorem get_bind {f : σ → StateT σ (Except ε) β} (h : Ends (f s) s S) : Ends (get >>= f) s S :=
  h

theorem modify_bind {g : σ → σ} {f : PUnit → StateT σ (Except ε) β} (h : Ends (f ⟨⟩) (g s) S) :
    Ends (modify g >>= f) s S :=
  h

theorem set_bind {t : σ} {f : PUnit → StateT σ (Except ε) β} (h : Ends (f ⟨⟩) t S) : Ends (set t >>= f) s S :=
  h

end Ends

/-- From `s`, `x` ends with a result and a state that meet `Q`, or with an exception that meets `E`. -/
def Outcome (x : StateT σ (Except ε) α) (s : σ) (Q : α → σ → Prop) (E : ε → Prop) : Prop :=
  match x s with
  | .ok r => Q r.1 r.2
  | .error e => E e

namespace Outcome

variable {x : StateT σ (Except ε) α} {f : α → StateT σ (Except ε) β} {s : σ} {Q R : α → σ → Prop}
  {S : β → σ → Prop} {E : ε → Prop}

theorem of_ends (h : Ends x s Q) : Outcome x s Q E := by
  obtain ⟨a, s', hx, hQ⟩ := h
  rw [Outcome, hx]
  exact hQ

theorem ok {a : α} {s' : σ} (h : Outcome x s Q E) (hx : x s = .ok (a, s')) : Q a s' := by
  rw [Outcome, hx] at h
  exact h

theorem error {e : ε} (h : Outcome x s Q E) (hx : x s = .error e) : E e := by
  rw [Outcome, hx] at h
  exact h

theorem mono (h : Outcome x s Q E) (hQR : ∀ a s', Q a s' → R a s') : Outcome x s R E := by
  unfold Outcome at h ⊢
  cases hx : x s with
  | error e =>
    rw [hx] at h
    exact h
  | ok r =>
    rw [hx] at h
    exact hQR _ _ h

theorem mono_error {E' : ε → Prop} (h : Outcome x s Q E) (hE : ∀ e, E e → E' e) : Outcome x s Q E' := by
  unfold Outcome at h ⊢
  cases hx : x s with
  | error e =>
    rw [hx] at h
    exact hE e h
  | ok r =>
    rw [hx] at h
    exact h

theorem and (h : Outcome x s Q E) (h' : Outcome x s R E) : Outcome x s (fun a s' => Q a s' ∧ R a s') E := by
  unfold Outcome at h h' ⊢
  cases hx : x s with
  | error e =>
    rw [hx] at h
    exact h
  | ok r =>
    rw [hx] at h h'
    exact ⟨h, h'⟩

/-- Nothing is said but how the program ends. -/
theorem run (x : StateT σ (Except ε) α) (s : σ) : Outcome x s (fun a s' => x s = .ok (a, s')) fun _ => True := by
  rw [Outcome]
  split
  next r hr => exact hr
  next => exact True.intro

theorem pure {a : α} (h : Q a s) : Outcome (Pure.pure a : StateT σ (Except ε) α) s Q E :=
  h

theorem get_bind {f : σ → StateT σ (Except ε) β} (h : Outcome (f s) s S E) : Outcome (get >>= f) s S E :=
  h

theorem set_bind {t : σ} {f : PUnit → StateT σ (Except ε) β} (h : Outcome (f ⟨⟩) t S E) : Outcome (set t >>= f) s S E :=
  h

theorem throw_bind {e : ε} (h : E e) : Outcome ((throw e : StateT σ (Except ε) α) >>= f) s S E :=
  h

theorem bind (hx : Outcome x s Q E) (hf : ∀ a s', Q a s' → Outcome (f a) s' S E) : Outcome (x >>= f) s S E := by
  change match x s >>= fun p => f p.1 p.2 with
    | .ok r => S r.1 r.2
    | .error e => E e
  cases h : x s with
  | error e => exact hx.error h
  | ok r => exact hf r.1 r.2 (hx.ok h)

theorem bind_ends (hx : Ends x s Q) (hf : ∀ a s', Q a s' → Outcome (f a) s' S E) : Outcome (x >>= f) s S E :=
  (of_ends hx).bind hf

end Outcome

end Xv6
