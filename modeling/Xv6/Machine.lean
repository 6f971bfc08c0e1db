import Mathlib.Logic.Relation

/-!
# Machines and their runs

A machine is a set of initial states and a partial step on an action. A run is a list of
actions, each enabled where it is taken. What a proof about all runs needs is here once :
the states reached (`Machine.Reachable`), the states reached by runs all of whose steps
meet a condition on the state before the step (`Machine.ReachWhen`), the induction rule
for both (`Machine.ReachWhen.invariant`), execution of a given list of actions
(`Machine.exec`), and machines with a history variable (`Machine.observe`).

A history variable reads the run and is read by no step, so the observed machine has the
runs of the machine it observes (`Machine.ReachWhen.of_observe`, `Machine.ReachWhen.observed`).
-/

namespace Xv6

/-- The states a machine may start in, and its step on an action; `none` when the action
is not enabled. -/
structure Machine (σ α : Type*) where
  init : σ → Prop
  step : σ → α → Option σ

/-- What a step behind a guard says. -/
theorem of_guard {σ : Type*} {c : Prop} {_ : Decidable c} {s s' : σ}
    (h : (if c then some s else none) = some s') : c ∧ s = s' := by
  rwa [Option.ite_none_right_eq_some, Option.some.injEq] at h

namespace Machine

variable {σ α : Type*} (M : Machine σ α)

/-- The states reached by runs whose every step meets `C`, read at the state before the
step. -/
inductive ReachWhen (C : σ → α → Prop) : σ → Prop
  | init {s : σ} (h : M.init s) : ReachWhen C s
  | step {s s' : σ} {a : α} (h : ReachWhen C s) (hC : C s a) (hs : M.step s a = some s') :
    ReachWhen C s'

/-- The states reached by any run. -/
abbrev Reachable : σ → Prop :=
  M.ReachWhen fun _ _ => True

/-- Some step of the machine leads from `s` to `s'`. -/
def Next (s s' : σ) : Prop :=
  ∃ a, M.step s a = some s'

/-- Some run leads from `s` to `s'`. -/
abbrev Leads : σ → σ → Prop :=
  Relation.ReflTransGen M.Next

variable {M} {C D : σ → α → Prop}

/-- A property of the initial states that every step of the run keeps holds in every state
reached. The step may use that its source is reached. -/
theorem ReachWhen.invariant {I : σ → Prop} (h0 : ∀ s, M.init s → I s)
    (hstep : ∀ s a s', M.ReachWhen C s → I s → C s a → M.step s a = some s' → I s') {s : σ}
    (h : M.ReachWhen C s) : I s := by
  induction h with
  | init h => exact h0 _ h
  | step h hC hs ih => exact hstep _ _ _ h ih hC hs

theorem ReachWhen.mono (hCD : ∀ s a, C s a → D s a) {s : σ} (h : M.ReachWhen C s) :
    M.ReachWhen D s := by
  induction h with
  | init h => exact .init h
  | step _ hC hs ih => exact .step ih (hCD _ _ hC) hs

theorem Reachable.leads {s s' : σ} (h : M.Reachable s) (hl : M.Leads s s') : M.Reachable s' := by
  induction hl with
  | refl => exact h
  | tail _ hn ih =>
    obtain ⟨a, ha⟩ := hn
    exact .step ih trivial ha

/-- A property that every step keeps is kept by every run. -/
theorem Leads.invariant {I : σ → Prop} (hstep : ∀ s a s', I s → M.step s a = some s' → I s')
    {s s' : σ} (hl : M.Leads s s') (h : I s) : I s' := by
  induction hl with
  | refl => exact h
  | tail _ hn ih =>
    obtain ⟨a, ha⟩ := hn
    exact hstep _ _ _ ih ha

/-! ## Executing a list of actions -/

variable (M) in
/-- Take the actions in order. -/
def exec : σ → List α → Option σ
  | s, [] => some s
  | s, a :: as => (M.step s a).bind fun s' => exec s' as

theorem exec_cons {s s' : σ} {a : α} {as : List α} :
    M.exec s (a :: as) = some s' ↔ ∃ t, M.step s a = some t ∧ M.exec t as = some s' :=
  Option.bind_eq_some_iff

theorem leads_of_exec : ∀ {s s' : σ} {as : List α}, M.exec s as = some s' → M.Leads s s'
  | s, s', [], h => by
    obtain rfl : s = s' := by simpa [exec] using h
    exact .refl
  | s, s', a :: as, h => by
    obtain ⟨t, ht, h⟩ := exec_cons.mp h
    exact .head ⟨a, ht⟩ (leads_of_exec h)

/-- A run from an initial state that ends where `p` holds, checked by executing it. -/
theorem reachable_of_exec {s : σ} (h0 : M.init s) (as : List α) (p : σ → Prop) [DecidablePred p]
    (h : (M.exec s as).any (fun s' => decide (p s')) = true) : ∃ s', M.Reachable s' ∧ p s' := by
  cases hs : M.exec s as with
  | none => simp [hs] at h
  | some s' =>
    exact ⟨s', Reachable.leads (.init h0) (leads_of_exec hs), by simpa [hs] using h⟩

variable (M C) in
/-- The machine without the steps that do not meet `C`. -/
def guarded [∀ s a, Decidable (C s a)] : Machine σ α where
  init := M.init
  step s a := if C s a then M.step s a else none

theorem guarded_step [∀ s a, Decidable (C s a)] {s s' : σ} {a : α} :
    (M.guarded C).step s a = some s' ↔ C s a ∧ M.step s a = some s' :=
  Option.ite_none_right_eq_some

theorem Reachable.of_guarded [∀ s a, Decidable (C s a)] {s : σ} (h : (M.guarded C).Reachable s) :
    M.ReachWhen C s := by
  induction h with
  | init h => exact .init h
  | step _ _ hs ih =>
    obtain ⟨hC, hs⟩ := guarded_step.mp hs
    exact .step ih hC hs

/-- A run that is checked step by step goes on from a state reached. -/
theorem ReachWhen.exec [∀ s a, Decidable (C s a)] {s s' : σ} {as : List α} (h : M.ReachWhen C s)
    (hs : (M.guarded C).exec s as = some s') : M.ReachWhen C s' := by
  induction as generalizing s with
  | nil => exact Option.some.inj hs ▸ h
  | cons a as ih =>
    obtain ⟨t, ht, hs⟩ := exec_cons.mp hs
    obtain ⟨hC, ht⟩ := guarded_step.mp ht
    exact ih (h.step hC ht) hs

/-- A run of actions that meet the condition in every state goes on from a state reached. -/
theorem ReachWhen.exec_of_forall {s s' : σ} {as : List α} (h : M.ReachWhen C s)
    (hC : ∀ a ∈ as, ∀ t, C t a) (hs : M.exec s as = some s') : M.ReachWhen C s' := by
  induction as generalizing s with
  | nil => exact Option.some.inj hs ▸ h
  | cons a as ih =>
    obtain ⟨t, ht, hs⟩ := exec_cons.mp hs
    exact ih (h.step (hC a List.mem_cons_self s) ht) (fun b hb => hC b (List.mem_cons_of_mem a hb)) hs

/-- Such a run from an initial state that ends where `p` holds, checked by executing it. -/
theorem reachWhen_of_exec {s : σ} (h0 : M.init s) (as : List α) (hC : ∀ a ∈ as, ∀ t, C t a) (p : σ → Prop)
    [DecidablePred p] (h : (M.exec s as).any (fun s' => decide (p s')) = true) : ∃ s', M.ReachWhen C s' ∧ p s' := by
  cases hs : M.exec s as with
  | none => simp [hs] at h
  | some s' => exact ⟨s', (ReachWhen.init h0).exec_of_forall hC hs, by simpa [hs] using h⟩

/-! ## History variables -/

variable (M) in
/-- The machine with a history variable : `h₀` at the start, and `upd` of its value, the
state before the step and the action at each step. -/
def observe {η : Type*} (h₀ : η) (upd : η → σ → α → η) : Machine (σ × η) α where
  init x := M.init x.1 ∧ x.2 = h₀
  step x a := (M.step x.1 a).map fun s' => (s', upd x.2 x.1 a)

variable {η : Type*} {h₀ : η} {upd : η → σ → α → η}

theorem observe_step {x y : σ × η} {a : α} :
    (M.observe h₀ upd).step x a = some y ↔ M.step x.1 a = some y.1 ∧ y.2 = upd x.2 x.1 a := by
  obtain ⟨s', h'⟩ := y
  simp only [observe, Option.map_eq_some_iff, Prod.mk.injEq]
  constructor
  · rintro ⟨t, ht, rfl, rfl⟩
    exact ⟨ht, rfl⟩
  · rintro ⟨ht, rfl⟩
    exact ⟨s', ht, rfl, rfl⟩

/-- A run of the observed machine is a run of the machine. -/
theorem ReachWhen.of_observe {x : σ × η}
    (h : (M.observe h₀ upd).ReachWhen (fun x a => C x.1 a) x) : M.ReachWhen C x.1 := by
  induction h with
  | init h => exact .init h.1
  | step _ hC hs ih => exact .step ih hC (observe_step.mp hs).1

/-- Every run of the machine is observed. -/
theorem ReachWhen.observed (h₀ : η) (upd : η → σ → α → η) {s : σ} (h : M.ReachWhen C s) :
    ∃ x, (M.observe h₀ upd).ReachWhen (fun x a => C x.1 a) (s, x) := by
  induction h with
  | init h => exact ⟨h₀, .init ⟨h, rfl⟩⟩
  | step _ hC hs ih =>
    obtain ⟨x, hx⟩ := ih
    exact ⟨_, .step hx hC (observe_step.mpr ⟨hs, rfl⟩)⟩

end Machine

end Xv6
