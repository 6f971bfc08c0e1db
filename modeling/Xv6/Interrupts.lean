import Mathlib.Data.Nat.Notation
import Mathlib.Logic.Function.Basic
import Mathlib.Tactic.SplitIfs
import Xv6.Machine
import Xv6.Spinlock

/-!
# Interrupts and kernel threads

`push_off` and `pop_off` of kernel/spinlock.c, `sched` and the switch of `scheduler` in kernel/proc.c, on any
number of CPUs and with any number of kernel threads of processes. `acquire` is `push_off` and then the lock
(`take`), `release` gives up the lock (`unlock`) and then calls `pop_off`; a thread may do these in any order that
undoes only what it has done. `noff` and `intena` belong to a CPU, and the bit `sie` of its `sstatus` says
whether interrupts are enabled.

A process leaves its CPU in the middle of `sched`, with the `intena` of that CPU in a local variable, and comes
back on any CPU, where it stores it (`restore`). A new process comes back in `forkret`, as if it held its lock. In
between, the `scheduler` of each CPU takes and gives up locks of its own. Elsewhere interrupts are turned on or off
(`intr_on`, `intr_off`, a trap and the return from it) only by a thread that has nothing to undo; a trap that comes
between the two instructions at the start of `push_off` is one that comes before it, since the trap restores what
the first one has read.

The depth of `noff` is that of the thread on the CPU (`Inv`), and the `intena` of the CPU is the one that
the thread has found at its first `push_off`, wherever that was (`interrupts_follow_thread`).
-/

set_option linter.unusedSectionVars false

namespace Xv6

open Function (update_self update_of_ne)

namespace Intr

/-- The calls of `panic` in `pop_off`. -/
inductive PopPanic
  /-- "pop_off - interruptible" -/
  | interruptible
  /-- "pop_off" -/
  | popOff
  deriving DecidableEq, Repr

/-- What `push_off` and `pop_off` use of a CPU. -/
structure Cpu where
  sie : Bool
  noff : ℕ
  intena : Bool
  deriving DecidableEq, Repr

/-- `push_off`. -/
def pushOff (c : Cpu) : Cpu :=
  let old := c.sie
  let c := { c with sie := false }
  let c := if c.noff = 0 then { c with intena := old } else c
  { c with noff := c.noff + 1 }

/-- `pop_off`. -/
def popOff (c : Cpu) : Except PopPanic Cpu := do
  if c.sie then throw .interruptible
  if c.noff < 1 then throw .popOff
  let c := { c with noff := c.noff - 1 }
  if c.noff = 0 ∧ c.intena = true then return { c with sie := true }
  return c

/-- The threads of the kernel : those of the processes, and the scheduler of each CPU. -/
inductive Thread (P : Type)
  | proc (p : P)
  | sched (c : ℕ)
  deriving DecidableEq

/-- Where the thread of a process is. -/
inductive Place
  /-- It has never run. -/
  | new
  /-- In `sched`, not on a CPU; the local variable has a value. -/
  | out (intena : Bool)
  /-- In `sched`, again on a CPU. -/
  | back (c : ℕ) (intena : Bool)
  /-- On a CPU. -/
  | on (c : ℕ)
  deriving DecidableEq

/-- The CPU the thread of a process is on. -/
def Place.cpu : Place → Option ℕ
  | new => none
  | out _ => none
  | back c _ => some c
  | on c => some c

/-- What a thread has still to undo, and whether interrupts were enabled when it began. -/
structure Account (L : Type) where
  pushes : ℕ
  held : List L
  outer : Option Bool

/-- How many calls of `push_off` a thread has still to undo. -/
def Account.depth {L : Type} (a : Account L) : ℕ :=
  a.pushes + a.held.length

/-- The state of the system. -/
structure State (P L : Type) where
  cpu : ℕ → Cpu
  lock : L → Spinlock
  place : P → Place
  /-- Whether the scheduler of a CPU is running. -/
  idle : ℕ → Bool
  account : Thread P → Account L

/-- What a thread on a CPU may do. -/
inductive Action (P L : Type)
  | pushOff (t : Thread P) (c : ℕ)
  | popOff (t : Thread P) (c : ℕ)
  | take (t : Thread P) (c : ℕ) (lk : L)
  | unlock (t : Thread P) (c : ℕ) (lk : L)
  | intr (t : Thread P) (c : ℕ) (b : Bool)
  | sched (p : P) (c : ℕ)
  | swtch (c : ℕ) (p : P)
  | restore (p : P) (c : ℕ)

namespace State

variable {P L : Type} [DecidableEq P] [DecidableEq L]

/-- The thread is on the CPU. -/
def runs (s : State P L) (c : ℕ) : Thread P → Prop
  | .proc p => s.place p = .on c
  | .sched c' => c' = c ∧ s.idle c = true

instance (s : State P L) (c : ℕ) : (t : Thread P) → Decidable (s.runs c t)
  | .proc p => inferInstanceAs (Decidable (s.place p = .on c))
  | .sched c' => inferInstanceAs (Decidable (c' = c ∧ s.idle c = true))

/-- Whether the CPU holds the lock. -/
def holds (s : State P L) (c : ℕ) (lk : L) : Bool :=
  (holding (some (s.lock lk)) c).toOption.getD false

/-- The thread `t` leaves its CPU and its account as given. -/
def act (s : State P L) (t : Thread P) (c : ℕ) (x : Cpu) (a : Account L) : State P L :=
  { s with cpu := Function.update s.cpu c x, account := Function.update s.account t a }

/-- A step, where `plock` is the lock of a process. -/
def step (plock : P → L) (s : State P L) : Action P L → Option (State P L)
  | .pushOff t c =>
    let a := s.account t
    let outer := if a.depth = 0 then some (s.cpu c).sie else a.outer
    if s.runs c t then some (s.act t c (Intr.pushOff (s.cpu c)) ⟨a.pushes + 1, a.held, outer⟩) else none
  | .popOff t c =>
    let a := s.account t
    if s.runs c t ∧ 0 < a.pushes then
      match Intr.popOff (s.cpu c) with
      | .ok x => some (s.act t c x ⟨a.pushes - 1, a.held, a.outer⟩)
      | .error _ => none
    else none
  | .take t c lk =>
    let a := s.account t
    if s.runs c t ∧ 0 < a.pushes ∧ (s.lock lk).locked = false then
      some { s.act t c (s.cpu c) ⟨a.pushes - 1, lk :: a.held, a.outer⟩ with
        lock := Function.update s.lock lk ⟨true, some c⟩ }
    else none
  | .unlock t c lk =>
    let a := s.account t
    if s.runs c t ∧ lk ∈ a.held ∧ s.holds c lk then
      some { s.act t c (s.cpu c) ⟨a.pushes + 1, a.held.erase lk, a.outer⟩ with
        lock := Function.update s.lock lk ⟨false, none⟩ }
    else none
  | .intr t c b =>
    if s.runs c t ∧ (s.account t).depth = 0 then some (s.act t c { s.cpu c with sie := b } (s.account t)) else none
  | .sched p c =>
    -- the checks of `sched`
    if s.runs c (.proc p) ∧ s.holds c (plock p) ∧ (s.cpu c).noff = 1 ∧ (s.cpu c).sie = false then
      some { s with place := Function.update s.place p (.out (s.cpu c).intena), idle := Function.update s.idle c true }
    else none
  | .swtch c p =>
    -- `scheduler` holds the lock of the process it has chosen, and nothing else
    if s.runs c (.sched c) ∧ (s.account (.sched c)).pushes = 0 ∧ (s.account (.sched c)).held = [plock p] then
      match s.place p with
      | .new => some { s with place := Function.update s.place p (.on c), idle := Function.update s.idle c false }
      | .out v => some { s with place := Function.update s.place p (.back c v), idle := Function.update s.idle c false }
      | _ => none
    else none
  | .restore p c =>
    match s.place p with
    | .back c' v =>
      if c' = c then
        some { s with
          cpu := Function.update s.cpu c { s.cpu c with intena := v }
          place := Function.update s.place p (.on c) }
      else none
    | _ => none

end State

variable {P L : Type} [DecidableEq P] [DecidableEq L]

/-- The CPUs come up with interrupts off in their schedulers, and no process has run. -/
def machine (plock : P → L) : Machine (State P L) (Action P L) where
  init s := (∀ c, (s.cpu c).noff = 0 ∧ (s.cpu c).sie = false ∧ s.idle c = true ∧ s.account (.sched c) = ⟨0, [], none⟩) ∧
    ∀ p, s.place p = .new ∧ s.account (.proc p) = ⟨0, [plock p], none⟩
  step := State.step plock

/-! ## One CPU -/

theorem pushOff_noff (x : Cpu) : (pushOff x).noff = x.noff + 1 := by
  unfold pushOff
  dsimp only
  split_ifs <;> rfl

theorem pushOff_sie (x : Cpu) : (pushOff x).sie = false := by
  unfold pushOff
  dsimp only
  split_ifs <;> rfl

theorem pushOff_intena (x : Cpu) : (pushOff x).intena = if x.noff = 0 then x.sie else x.intena := by
  unfold pushOff
  dsimp only
  split_ifs <;> rfl

/-- `pop_off` where interrupts are off and there is something to undo. -/
theorem popOff_eq {x : Cpu} (hoff : x.sie = false) (hpos : 0 < x.noff) :
    popOff x = .ok ⟨decide (x.noff = 1) && x.intena, x.noff - 1, x.intena⟩ := by
  obtain ⟨sie, noff, intena⟩ := x
  obtain rfl : sie = false := hoff
  obtain ⟨k, rfl⟩ := Nat.exists_eq_succ_of_ne_zero (Nat.ne_of_gt hpos)
  cases k with
  | zero => cases intena <;> rfl
  | succ k =>
    have hne : ¬ (k + 1 + 1 = 1) := by omega
    simp [popOff, pure, Except.pure]

/-! ## The invariant -/

/-- The `intena` of the thread of a process has the value, wherever it is kept. -/
def Place.Saved (cpu : ℕ → Cpu) (v : Bool) : Place → Prop
  | new => False
  | out b => b = v
  | back _ b => b = v
  | on c => (cpu c).intena = v

theorem Place.Saved.congr {cpu cpu' : ℕ → Cpu} {v : Bool} {l : Place} (h : l.Saved cpu v)
    (heq : ∀ c, l = .on c → (cpu' c).intena = (cpu c).intena) : l.Saved cpu' v := by
  cases l with
  | on c => exact (heq c rfl).trans h
  | _ => exact h

namespace State

/-- The invariant. -/
structure Inv (s : State P L) : Prop where
  onProc : ∀ p c, (s.place p).cpu = some c →
    (s.cpu c).noff = (s.account (.proc p)).depth ∧ s.idle c = false ∧ (s.account (.sched c)).depth = 1
  onSched : ∀ c, s.idle c = true → (s.cpu c).noff = (s.account (.sched c)).depth
  alone : ∀ p q c, (s.place p).cpu = some c → (s.place q).cpu = some c → p = q
  off : ∀ c, 0 < (s.cpu c).noff → (s.cpu c).sie = false
  parked : ∀ p, (∀ c, s.place p ≠ .on c) → (s.account (.proc p)).depth = 1
  saved : ∀ p v, (s.account (.proc p)).outer = some v → 0 < (s.account (.proc p)).depth → (s.place p).Saved s.cpu v

variable {s : State P L} {t : Thread P} {c : ℕ} {x : Cpu} {a : Account L}

theorem Inv.noff (h : s.Inv) (hruns : s.runs c t) : (s.cpu c).noff = (s.account t).depth := by
  cases t with
  | proc p =>
    have hplace : s.place p = .on c := hruns
    exact (h.onProc p c (by rw [hplace]; rfl)).1
  | sched c' =>
    obtain ⟨rfl, hidle⟩ := hruns
    exact h.onSched c' hidle

theorem Inv.eq_proc (h : s.Inv) (hruns : s.runs c t) {p : P} (hp : (s.place p).cpu = some c) : t = .proc p := by
  cases t with
  | proc q =>
    have hplace : s.place q = .on c := hruns
    rw [h.alone q p c (by rw [hplace]; rfl) hp]
  | sched c' =>
    have hidle := (h.onProc p c hp).2.1
    rw [hruns.2] at hidle
    cases hidle

theorem Inv.eq_sched (h : s.Inv) (hruns : s.runs c t) (hidle : s.idle c = true) : t = .sched c := by
  cases t with
  | proc p =>
    have hplace : s.place p = .on c := hruns
    have hbusy := (h.onProc p c (by rw [hplace]; rfl)).2.1
    rw [hidle] at hbusy
    cases hbusy
  | sched c' => rw [hruns.1]

/-- A thread that keeps `noff` to its own depth keeps the invariant. -/
theorem Inv.act (h : s.Inv) (hruns : s.runs c t) (hnoff : x.noff = a.depth) (hoff : 0 < x.noff → x.sie = false)
    (hsaved : ∀ p, t = .proc p → ∀ v, a.outer = some v → 0 < a.depth → x.intena = v) : (s.act t c x a).Inv where
  onProc p c' hp := by
    change (s.place p).cpu = some c' at hp
    have hold := h.onProc p c' hp
    by_cases hc : c' = c
    · subst hc
      obtain rfl := h.eq_proc hruns hp
      have hsched : Thread.sched c' ≠ .proc p := nofun
      change (Function.update s.cpu c' x c').noff = (Function.update s.account (.proc p) a (.proc p)).depth ∧ _ ∧
        (Function.update s.account (.proc p) a (.sched c')).depth = 1
      rw [update_self, update_self, update_of_ne hsched]
      exact ⟨hnoff, hold.2⟩
    · have hproc : Thread.proc p ≠ t := by
        rintro rfl
        have hplace : s.place p = .on c := hruns
        rw [hplace] at hp
        exact hc (Option.some.inj hp).symm
      have hsched : Thread.sched c' ≠ t := by
        rintro rfl
        exact hc hruns.1
      change (Function.update s.cpu c x c').noff = (Function.update s.account t a (.proc p)).depth ∧ _ ∧
        (Function.update s.account t a (.sched c')).depth = 1
      rw [update_of_ne hc, update_of_ne hproc, update_of_ne hsched]
      exact hold
  onSched c' hidle := by
    change (Function.update s.cpu c x c').noff = (Function.update s.account t a (.sched c')).depth
    by_cases hc : c' = c
    · subst hc
      rw [h.eq_sched hruns hidle, update_self, update_self]
      exact hnoff
    · have hsched : Thread.sched c' ≠ t := by
        rintro rfl
        exact hc hruns.1
      rw [update_of_ne hc, update_of_ne hsched]
      exact h.onSched c' hidle
  alone := h.alone
  off c' := by
    change 0 < (Function.update s.cpu c x c').noff → (Function.update s.cpu c x c').sie = false
    by_cases hc : c' = c
    · rw [hc, update_self]
      exact hoff
    · rw [update_of_ne hc]
      exact h.off c'
  parked p hp := by
    have hproc : Thread.proc p ≠ t := by
      rintro rfl
      exact hp c hruns
    change (Function.update s.account t a (.proc p)).depth = 1
    rw [update_of_ne hproc]
    exact h.parked p hp
  saved p v := by
    change (Function.update s.account t a (.proc p)).outer = some v →
      0 < (Function.update s.account t a (.proc p)).depth → (s.place p).Saved (Function.update s.cpu c x) v
    by_cases hproc : Thread.proc p = t
    · subst hproc
      have hplace : s.place p = .on c := hruns
      rw [update_self, hplace]
      intro houter hpos
      change (Function.update s.cpu c x c).intena = v
      rw [update_self]
      exact hsaved p rfl v houter hpos
    · rw [update_of_ne hproc]
      intro houter hpos
      refine (h.saved p v houter hpos).congr fun c' hplace => ?_
      have hc : c' ≠ c := by
        rintro rfl
        exact hproc (h.eq_proc hruns (by rw [hplace]; rfl)).symm
      rw [update_of_ne hc]

theorem Inv.setLock (h : s.Inv) (l : L → Spinlock) : Inv { s with lock := l } :=
  ⟨h.onProc, h.onSched, h.alone, h.off, h.parked, h.saved⟩

/-- What is saved for a process that runs. -/
theorem Inv.intena (h : s.Inv) {p : P} (hruns : s.runs c (.proc p)) {v : Bool}
    (houter : (s.account (.proc p)).outer = some v) (hpos : 0 < (s.account (.proc p)).depth) : (s.cpu c).intena = v := by
  have hsaved := h.saved p v houter hpos
  rwa [show s.place p = .on c from hruns] at hsaved

theorem Inv.pushOff (h : s.Inv) (hruns : s.runs c t) :
    (s.act t c (Intr.pushOff (s.cpu c)) ⟨(s.account t).pushes + 1, (s.account t).held,
      if (s.account t).depth = 0 then some (s.cpu c).sie else (s.account t).outer⟩).Inv := by
  have hnoff := h.noff hruns
  refine h.act hruns ?_ (fun _ => pushOff_sie _) ?_
  · rw [pushOff_noff, hnoff, Account.depth, Account.depth]
    dsimp only
    omega
  · rintro p rfl v houter -
    rw [pushOff_intena, hnoff]
    dsimp only at houter
    split_ifs at houter ⊢ with hzero
    · exact Option.some.inj houter
    · exact h.intena hruns houter (Nat.pos_of_ne_zero hzero)

/-- `pop_off` does not panic. -/
theorem Inv.popOff_ok (h : s.Inv) (hruns : s.runs c t) (hpos : 0 < (s.account t).pushes) :
    Intr.popOff (s.cpu c) = .ok ⟨decide ((s.account t).depth = 1) && (s.cpu c).intena, (s.account t).depth - 1,
      (s.cpu c).intena⟩ := by
  have hnoff := h.noff hruns
  have hdepth : 0 < (s.cpu c).noff := by
    rw [hnoff, Account.depth]
    omega
  rw [popOff_eq (h.off c hdepth) hdepth, hnoff]

theorem Inv.popOff (h : s.Inv) (hruns : s.runs c t) (hpos : 0 < (s.account t).pushes)
    (hpop : Intr.popOff (s.cpu c) = .ok x) :
    (s.act t c x ⟨(s.account t).pushes - 1, (s.account t).held, (s.account t).outer⟩).Inv := by
  have hdepth : (s.account t).depth = (s.account t).pushes - 1 + (s.account t).held.length + 1 := by
    rw [Account.depth]
    omega
  rw [h.popOff_ok hruns hpos] at hpop
  cases hpop
  refine h.act hruns ?_ (fun hlt => ?_) ?_
  · rw [hdepth]
    rfl
  · dsimp only at hlt ⊢
    rw [decide_eq_false (by omega), Bool.false_and]
  · rintro p rfl v houter -
    exact h.intena hruns houter (by omega)

/-- `sched` leaves the CPU to its scheduler. -/
theorem Inv.sched (h : s.Inv) {p : P} (hruns : s.runs c (.proc p)) (hone : (s.cpu c).noff = 1) :
    Inv { s with place := Function.update s.place p (.out (s.cpu c).intena), idle := Function.update s.idle c true } := by
  have hplace : s.place p = .on c := hruns
  have hp : (s.place p).cpu = some c := by
    rw [hplace]
    rfl
  have hdepth : (s.account (.proc p)).depth = 1 := (h.noff hruns).symm.trans hone
  have hself : Function.update s.place p (.out (s.cpu c).intena) p = .out (s.cpu c).intena := update_self ..
  have hother : ∀ q, q ≠ p → Function.update s.place p (.out (s.cpu c).intena) q = s.place q := fun q hq =>
    update_of_ne hq _ _
  have hne : ∀ {q c'}, (Function.update s.place p (.out (s.cpu c).intena) q).cpu = some c' →
      q ≠ p ∧ (s.place q).cpu = some c' := fun {q c'} hq => by
    by_cases hqp : q = p
    · rw [hqp, hself] at hq
      cases hq
    · exact ⟨hqp, hother q hqp ▸ hq⟩
  refine ⟨fun q c' hq => ?_, fun c' hidle => ?_, fun q r c' hq hr => ?_, h.off, fun q hq => ?_, fun q v houter hpos => ?_⟩
  · obtain ⟨hqp, hplaceq⟩ := hne hq
    have hc : c' ≠ c := by
      rintro rfl
      exact hqp (h.alone q p c' hplaceq hp)
    obtain ⟨hnoff, hidle, hsched⟩ := h.onProc q c' hplaceq
    exact ⟨hnoff, (update_of_ne hc _ _).trans hidle, hsched⟩
  · by_cases hc : c' = c
    · rw [hc]
      exact hone.trans (h.onProc p c hp).2.2.symm
    · exact h.onSched c' ((update_of_ne hc _ _).symm.trans hidle)
  · exact h.alone q r c' (hne hq).2 (hne hr).2
  · by_cases hqp : q = p
    · rw [hqp]
      exact hdepth
    · exact h.parked q fun c' hplace => hq c' ((hother q hqp).trans hplace)
  · by_cases hqp : q = p
    · subst hqp
      change (Function.update s.place q (.out (s.cpu c).intena) q).Saved s.cpu v
      rw [hself]
      exact h.intena hruns houter hpos
    · change (Function.update s.place p (.out (s.cpu c).intena) q).Saved s.cpu v
      rw [hother q hqp]
      exact h.saved q v houter hpos

/-- A scheduler leaves its CPU to a process that is on none. -/
theorem Inv.swtch (h : s.Inv) (hidle : s.idle c = true) (hdepth : (s.account (.sched c)).depth = 1) {p : P} {l : Place}
    (hp : (s.place p).cpu = none) (hl : l.cpu = some c) (hsaved : ∀ v, (s.place p).Saved s.cpu v → l.Saved s.cpu v) :
    Inv { s with place := Function.update s.place p l, idle := Function.update s.idle c false } := by
  have hself : Function.update s.place p l p = l := update_self ..
  have hother : ∀ q, q ≠ p → Function.update s.place p l q = s.place q := fun q hq => update_of_ne hq _ _
  have hparked : (s.account (.proc p)).depth = 1 := h.parked p fun c' hplace => by
    rw [hplace] at hp
    cases hp
  -- no other process was on the CPU
  have hfree : ∀ q, (s.place q).cpu ≠ some c := fun q hq => by
    have hbusy := (h.onProc q c hq).2.1
    rw [hidle] at hbusy
    cases hbusy
  have hcases : ∀ {q c'}, (Function.update s.place p l q).cpu = some c' →
      q = p ∧ c' = c ∨ q ≠ p ∧ c' ≠ c ∧ (s.place q).cpu = some c' := fun {q c'} hq => by
    by_cases hqp : q = p
    · rw [hqp, hself, hl] at hq
      exact .inl ⟨hqp, (Option.some.inj hq).symm⟩
    · rw [hother q hqp] at hq
      refine .inr ⟨hqp, ?_, hq⟩
      rintro rfl
      exact hfree q hq
  refine ⟨fun q c' hq => ?_, fun c' hidle' => ?_, fun q r c' hq hr => ?_, h.off, fun q hq => ?_, fun q v houter hpos => ?_⟩
  · obtain ⟨rfl, rfl⟩ | ⟨-, hc, hq⟩ := hcases hq
    · exact ⟨(h.onSched c' hidle).trans (hdepth.trans hparked.symm), update_self .., hdepth⟩
    · obtain ⟨hnoff, hbusy, hsched⟩ := h.onProc q c' hq
      exact ⟨hnoff, (update_of_ne hc _ _).trans hbusy, hsched⟩
  · have hc : c' ≠ c := by
      rintro rfl
      change Function.update s.idle c' false c' = true at hidle'
      rw [update_self] at hidle'
      cases hidle'
    exact h.onSched c' ((update_of_ne hc _ _).symm.trans hidle')
  · obtain ⟨rfl, rfl⟩ | ⟨-, hc, hq⟩ := hcases hq
    · obtain ⟨rfl, -⟩ | ⟨-, hc, -⟩ := hcases hr
      · rfl
      · exact absurd rfl hc
    · obtain ⟨-, rfl⟩ | ⟨-, -, hr⟩ := hcases hr
      · exact absurd rfl hc
      · exact h.alone q r c' hq hr
  · by_cases hqp : q = p
    · rw [hqp]
      exact hparked
    · exact h.parked q fun c' hplace => hq c' ((hother q hqp).trans hplace)
  · change (Function.update s.place p l q).Saved s.cpu v
    by_cases hqp : q = p
    · subst hqp
      rw [hself]
      exact hsaved v (h.saved q v houter hpos)
    · rw [hother q hqp]
      exact h.saved q v houter hpos

/-- The process has its `intena` on the new CPU. -/
theorem Inv.restore (h : s.Inv) {p : P} {v : Bool} (hp : s.place p = .back c v) :
    Inv { s with
      cpu := Function.update s.cpu c { s.cpu c with intena := v }
      place := Function.update s.place p (.on c) } := by
  have hself : Function.update s.place p (.on c) p = .on c := update_self ..
  have hother : ∀ q, q ≠ p → Function.update s.place p (.on c) q = s.place q := fun q hq => update_of_ne hq _ _
  have hpc : (s.place p).cpu = some c := by
    rw [hp]
    rfl
  have hcpu : ∀ q, (Function.update s.place p (.on c) q).cpu = (s.place q).cpu := fun q => by
    by_cases hqp : q = p
    · rw [hqp, hself, hpc]
      rfl
    · rw [hother q hqp]
  have hsame : ∀ c', (Function.update s.cpu c { s.cpu c with intena := v } c').noff = (s.cpu c').noff ∧
      (Function.update s.cpu c { s.cpu c with intena := v } c').sie = (s.cpu c').sie := fun c' => by
    by_cases hc : c' = c
    · rw [hc, update_self]
      exact ⟨rfl, rfl⟩
    · rw [update_of_ne hc]
      exact ⟨rfl, rfl⟩
  refine ⟨fun q c' hq => ?_, fun c' hidle => ?_, fun q r c' hq hr => ?_, fun c' hpos => ?_, fun q hq => ?_,
    fun q w houter hpos => ?_⟩
  · have hold := h.onProc q c' ((hcpu q).symm.trans hq)
    exact ⟨(hsame c').1.trans hold.1, hold.2⟩
  · exact (hsame c').1.trans (h.onSched c' hidle)
  · exact h.alone q r c' ((hcpu q).symm.trans hq) ((hcpu r).symm.trans hr)
  · exact (hsame c').2.trans (h.off c' ((hsame c').1 ▸ hpos))
  · by_cases hqp : q = p
    · exact absurd (hqp ▸ hself) (hq c)
    · exact h.parked q fun c' hplace => hq c' ((hother q hqp).trans hplace)
  · change (Function.update s.place p (.on c) q).Saved (Function.update s.cpu c { s.cpu c with intena := v }) w
    have hold := h.saved q w houter hpos
    by_cases hqp : q = p
    · subst hqp
      rw [hp] at hold
      rw [hself]
      change (Function.update s.cpu c { s.cpu c with intena := v } c).intena = w
      rw [update_self]
      exact hold
    · rw [hother q hqp]
      refine hold.congr fun c' hplace => ?_
      have hc : c' ≠ c := by
        rintro rfl
        exact hqp (h.alone q p c' (by rw [hplace]; rfl) hpc)
      rw [update_of_ne hc]

theorem Inv.step {plock : P → L} {s' : State P L} (h : s.Inv) {act : Action P L} (hstep : s.step plock act = some s') :
    s'.Inv := by
  cases act with
  | pushOff t c =>
    obtain ⟨hruns, rfl⟩ := of_guard hstep
    exact h.pushOff hruns
  | popOff t c =>
    obtain ⟨⟨hruns, hpos⟩, heq⟩ := Option.ite_none_right_eq_some.mp hstep
    cases hpop : Intr.popOff (s.cpu c) with
    | ok x =>
      rw [hpop] at heq
      cases heq
      exact h.popOff hruns hpos hpop
    | error e =>
      rw [hpop] at heq
      cases heq
  | take t c lk =>
    obtain ⟨⟨hruns, hpos, -⟩, rfl⟩ := of_guard hstep
    refine (h.act hruns ((h.noff hruns).trans ?_) (h.off c) ?_).setLock _
    · rw [Account.depth, Account.depth, List.length_cons]
      dsimp only
      omega
    · rintro p rfl v houter -
      exact h.intena hruns houter (by rw [Account.depth]; omega)
  | unlock t c lk =>
    obtain ⟨⟨hruns, hmem, -⟩, rfl⟩ := of_guard hstep
    have hlen := List.length_pos_of_mem hmem
    refine (h.act hruns ((h.noff hruns).trans ?_) (h.off c) ?_).setLock _
    · rw [Account.depth, Account.depth, List.length_erase_of_mem hmem]
      dsimp only
      omega
    · rintro p rfl v houter -
      exact h.intena hruns houter (by rw [Account.depth]; omega)
  | intr t c b =>
    obtain ⟨⟨hruns, hzero⟩, rfl⟩ := of_guard hstep
    have hnoff := h.noff hruns
    refine h.act hruns hnoff (fun hlt => ?_) ?_
    · dsimp only at hlt
      omega
    · rintro p rfl v - hlt
      omega
  | sched p c =>
    obtain ⟨⟨hruns, -, hone, -⟩, rfl⟩ := of_guard hstep
    exact h.sched hruns hone
  | swtch c p =>
    obtain ⟨⟨hruns, hpushes, hheld⟩, heq⟩ := Option.ite_none_right_eq_some.mp hstep
    have hdepth : (s.account (.sched c)).depth = 1 := by
      rw [Account.depth, hpushes, hheld]
      rfl
    cases hplace : s.place p with
    | new =>
      rw [hplace] at heq
      cases heq
      refine h.swtch hruns.2 hdepth (by rw [hplace]; rfl) rfl fun v hv => ?_
      rw [hplace] at hv
      exact hv.elim
    | out v =>
      rw [hplace] at heq
      cases heq
      refine h.swtch hruns.2 hdepth (by rw [hplace]; rfl) rfl fun v hv => ?_
      rw [hplace] at hv
      exact hv
    | back c' v =>
      rw [hplace] at heq
      cases heq
    | on c' =>
      rw [hplace] at heq
      cases heq
  | restore p c =>
    rw [State.step] at hstep
    cases hplace : s.place p with
    | back c' v =>
      rw [hplace] at hstep
      obtain ⟨rfl, rfl⟩ := of_guard hstep
      exact h.restore hplace
    | _ =>
      rw [hplace] at hstep
      cases hstep

end State

/-- The invariant holds in every run. -/
theorem Inv.run {plock : P → L} {s : State P L} (h : (machine plock).Reachable s) : s.Inv := by
  refine h.invariant (fun s hinit => ?_) fun s act s' _ hinv _ hstep => hinv.step hstep
  obtain ⟨hcpu, hproc⟩ := hinit
  have hplace : ∀ p, (s.place p).cpu = none := fun p => by
    rw [(hproc p).1]
    rfl
  refine ⟨fun p c hp => ?_, fun c _ => ?_, fun p q c hp => ?_, fun c hpos => (hcpu c).2.1, fun p _ => ?_,
    fun p v houter => ?_⟩
  · rw [hplace p] at hp
    cases hp
  · rw [(hcpu c).1, (hcpu c).2.2.2]
    rfl
  · rw [hplace p] at hp
    cases hp
  · rw [(hproc p).2]
    rfl
  · rw [(hproc p).2] at houter
    cases houter

/-- In every run, interrupts are off where `noff` is not zero, `pop_off` does not panic, and the last `pop_off` of a
process turns interrupts on if and only if its first `push_off` has found them on. -/
theorem interrupts_follow_thread {plock : P → L} {s : State P L} (h : (machine plock).Reachable s) :
    (∀ c, 0 < (s.cpu c).noff → (s.cpu c).sie = false) ∧
    ∀ t c, s.runs c t → 0 < (s.account t).pushes → ∃ x, popOff (s.cpu c) = .ok x ∧
      ∀ p v, t = .proc p → (s.account t).depth = 1 → (s.account t).outer = some v → (x.sie = true ↔ v = true) := by
  have hinv := Inv.run h
  refine ⟨hinv.off, fun t c hruns hpos => ⟨_, hinv.popOff_ok hruns hpos, ?_⟩⟩
  rintro p v rfl hone houter
  dsimp only
  rw [hinv.intena hruns houter (by omega), decide_eq_true hone, Bool.true_and]

/-- Two processes, each with its own lock, before anything has run. -/
def twoThreads : State Bool Bool where
  cpu _ := ⟨false, 0, false⟩
  lock _ := ⟨false, none⟩
  place _ := .new
  idle _ := true
  account t := match t with
    | .proc p => ⟨0, [p], none⟩
    | .sched _ => ⟨0, [], none⟩

/-- A process that runs on CPU 0, calls `yield` with interrupts on, and comes back on CPU 1. -/
def yieldsOver : List (Action Bool Bool) :=
  [.pushOff (.sched 0) 0, .take (.sched 0) 0 true, .swtch 0 true, .unlock (.proc true) 0 true, .popOff (.proc true) 0,
    .intr (.proc true) 0 true, .pushOff (.proc true) 0, .take (.proc true) 0 true, .sched true 0,
    .unlock (.sched 0) 0 true, .popOff (.sched 0) 0, .pushOff (.sched 1) 1, .take (.sched 1) 1 true, .unlock (.sched 1) 1 true,
    .take (.sched 1) 1 true, .swtch 1 true, .restore true 1, .unlock (.proc true) 1 true]

/-- The last `pop_off` of `yield`, on the other CPU, turns interrupts on. -/
theorem interrupts_follow_yield : ∃ s x, (machine id).Reachable s ∧ s.place true = .on 1 ∧
    popOff (s.cpu 1) = .ok x ∧ x.sie = true := by
  obtain ⟨s, hs, hplace, hpushes, hdepth, houter⟩ := Machine.reachable_of_exec (M := machine id) (s := twoThreads)
    ⟨fun _ => ⟨rfl, rfl, rfl, rfl⟩, fun _ => ⟨rfl, rfl⟩⟩ yieldsOver
    (fun s => s.place true = .on 1 ∧ (s.account (.proc true)).pushes = 1 ∧ (s.account (.proc true)).depth = 1 ∧
      (s.account (.proc true)).outer = some true) (by decide +kernel)
  obtain ⟨x, hpop, hon⟩ := (interrupts_follow_thread hs).2 (.proc true) 1 hplace (by omega)
  exact ⟨s, x, hs, hplace, hpop, (hon true true rfl hdepth houter).mpr rfl⟩

end Intr

end Xv6
