import Mathlib.Data.Fin.Basic
import Xv6.Pipe

/-!
# Mutual exclusion in the pipe code

The processes on a pipe are clients of Peterson's lock, on side 0 to write or to close the
write end and on side 1 to read or to close the read end (`Sys.lock`). Every step of the
pipe code is a step of the lock, or does not move it (`Sys.step_lock`).

The lock takes one client a side. Two writers, as `fork` or `dup` give, are both let in
(`two_writers_inside`). A run in which no process starts to enter on a side that is taken
keeps at most one process between the return of its `peterson_enter` and the store of its
`peterson_exit` (`inside_unique_of_soleEntry`), whatever `sleep` does.
-/

set_option linter.unusedSectionVars false

namespace Xv6

variable {P : Type}

/-- Where a call in progress is in the lock protocol. -/
def Frame.loc (f : Frame P) : Loc :=
  match f.pc with
  | .setFlag | .cFree => .out
  | .setTurn => .flagged f.op.tid
  | .loadFlag => .waiting f.op.tid
  | .loadTurn => .tested f.op.tid
  | _ => .inside f.op.tid

/-- Where a process is in the lock protocol. -/
def locOf : Option (Frame P) → Loc
  | none => .out
  | some f => f.loc

@[simp] theorem locOf_none : locOf (none : Option (Frame P)) = .out :=
  rfl

@[simp] theorem locOf_some (f : Frame P) : locOf (some f) = f.loc :=
  rfl

@[simp] theorem Frame.loc_resume (f : Frame P) : f.resume.loc = f.loc := by
  unfold Frame.resume
  split <;> rename_i h <;> simp [Frame.loc, h]

@[simp] theorem Frame.loc_wakeup (chan : PipeChan) (f : Frame P) : (f.wakeup chan).loc = f.loc := by
  unfold Frame.wakeup
  split_ifs
  · exact f.loc_resume
  · rfl

theorem Frame.loc_body (c : Config P) (f : Frame P) :
    Frame.loc { f with pc := f.body c } = .inside f.op.tid := by
  unfold Frame.body Frame.wHead
  split <;> try split_ifs
  all_goals rfl

theorem Frame.loc_wHead (c : Config P) (f : Frame P) :
    Frame.loc { f with pc := f.wHead c } = .inside f.op.tid := by
  unfold Frame.wHead
  split_ifs <;> rfl

theorem Frame.loc_rHead (c : Config P) (f : Frame P) :
    Frame.loc { f with pc := f.rHead c } = .inside f.op.tid := by
  unfold Frame.rHead
  split_ifs <;> rfl

namespace Sys

variable [DecidableEq P]

/-- The pipe's lock and its clients. -/
def lock (s : Sys P) : Lock P where
  flag := s.pipe.flag
  turn := s.pipe.turn
  loc p := locOf (s.frame p)

/-- Process `p` is between the return of its `peterson_enter` and the store of its
`peterson_exit`. -/
def Inside (s : Sys P) (p : P) : Prop :=
  ∃ side, s.lock.loc p = .inside side

theorem lock_goto (s : Sys P) (p : P) (f : Frame P) (pc : Pc P) :
    (s.goto p f pc).lock = s.lock.move p (Frame.loc { f with pc := pc }) := by
  simp only [lock, goto, Lock.move, Lock.mk.injEq, true_and]
  funext q
  by_cases h : q = p
  · subst h
    simp
  · simp [Function.update_of_ne h]

theorem lock_leave (s : Sys P) (p : P) (r : Option Int) :
    (s.leave p r).lock = s.lock.move p .out := by
  simp only [lock, leave, Lock.move, Lock.mk.injEq, true_and]
  funext q
  by_cases h : q = p
  · subst h
    simp
  · simp [Function.update_of_ne h]

theorem lock_wake (s : Sys P) (p q : P) (chan : PipeChan) : (s.wake p q chan).lock = s.lock := by
  unfold wake
  split_ifs
  · rfl
  · simp only [lock, Lock.mk.injEq, true_and]
    funext r
    by_cases h : r = q
    · subst h
      cases hr : s.frame r <;> simp
    · simp [Function.update_of_ne h]

theorem move_loc (s : Sys P) {p : P} {l : Loc} (h : s.lock.loc p = l) : s.lock.move p l = s.lock := by
  subst h
  simp [Lock.move]

theorem lock_wakeupLoop (s : Sys P) (p : P) (f : Frame P) (chan : PipeChan) (todo : List P)
    {again : List P → Pc P} {pc : Pc P} {side : Side} (h : s.lock.loc p = .inside side)
    (hagain : ∀ todo, Frame.loc { f with pc := again todo } = .inside side)
    (hpc : Frame.loc { f with pc := pc } = .inside side) :
    (s.wakeupLoop p f chan todo again pc).lock = s.lock := by
  cases todo with
  | nil => rw [wakeupLoop, lock_goto, hpc, s.move_loc h]
  | cons q todo =>
    rw [wakeupLoop, lock_goto, hagain, (s.wake p q chan).move_loc (by rw [lock_wake, h]), lock_wake]

theorem lock_sleep (c : Config P) (s : Sys P) (p : P) (f : Frame P) (lk : Option Spinlock)
    {pc : Pc P} {side : Side} (h : s.lock.loc p = .inside side)
    (hpc : Frame.loc { f with pc := pc } = .inside side) :
    (s.sleep c p f lk pc).lock = s.lock := by
  unfold sleep
  split
  · rw [lock_goto, hpc, s.move_loc h]
  · split
    · rfl
    · rw [lock_goto, hpc, s.move_loc h]

/-- A step inside the section moves no client of the lock. -/
theorem lock_goto_inside (s : Sys P) {p : P} {f : Frame P} {pc : Pc P} {side : Side}
    (h : s.lock.loc p = .inside side) (hpc : Frame.loc { f with pc := pc } = .inside side) :
    (s.goto p f pc).lock = s.lock := by
  rw [lock_goto, hpc, s.move_loc h]

/-- Process `p` makes the first store of its `peterson_enter`, on `side`. -/
def Enters (s : Sys P) (p : P) (a : PipeAct) (side : Side) : Prop :=
  a = .run ∧ ∃ f, s.frame p = some f ∧ f.pc = .setFlag ∧ f.op.tid = side

/-- `s'` has the lock of `s`, or one step more of it; the client that raises its flag is
then `p`, entering. -/
def LockStep (s : Sys P) (p : P) (a : PipeAct) (s' : Sys P) : Prop :=
  s'.lock = s.lock ∨ ∃ e, Lock.Step s.lock e s'.lock ∧
    ∀ q side, e = some (q, side) → q = p ∧ s.Enters p a side

theorem LockStep.of_none {s s' : Sys P} {p : P} {a : PipeAct}
    (h : Lock.Step s.lock none s'.lock) : s.LockStep p a s' :=
  Or.inr ⟨none, h, fun _ _ he => by cases he⟩

/-- The next step of a process is a step of the lock, or moves no client of it. -/
theorem run_lock {c : Config P} {s s' : Sys P} {p : P} {f : Frame P} (hf : s.frame p = some f)
    (h : s.run c p f = some s') : s.LockStep p .run s' := by
  have hloc : s.lock.loc p = f.loc := by simp [lock, hf]
  cases hpc : f.pc <;> simp only [run, hpc, Option.some.injEq, reduceCtorEq] at h <;> subst h <;>
    simp only [Frame.loc, hpc] at hloc
  case setFlag =>
    refine Or.inr ⟨some (p, f.op.tid), ?_, fun q side he => ?_⟩
    · rw [lock_goto]
      exact Lock.Step.raise p f.op.tid hloc
    · obtain ⟨rfl, rfl⟩ := Prod.mk.inj (Option.some.inj he)
      exact ⟨rfl, rfl, f, hf, hpc, rfl⟩
  case setTurn =>
    refine .of_none ?_
    rw [lock_goto]
    exact Lock.Step.give p f.op.tid hloc
  case loadFlag =>
    refine .of_none ?_
    rw [lock_goto]
    split_ifs with hfl
    · exact Lock.Step.test p f.op.tid hloc hfl
    · rw [f.loc_body c]
      exact Lock.Step.skip p f.op.tid hloc (by simpa [lock] using hfl)
  case loadTurn =>
    refine .of_none ?_
    rw [lock_goto]
    split_ifs with ht
    · exact Lock.Step.retry p f.op.tid hloc ht
    · rw [f.loc_body c]
      exact Lock.Step.pass p f.op.tid hloc ht
  case cExit =>
    refine .of_none ?_
    rw [lock_goto]
    exact Lock.Step.lower p f.op.tid hloc
  case exit r =>
    refine .of_none ?_
    rw [lock_leave]
    exact Lock.Step.lower p f.op.tid hloc
  case cFree =>
    left
    rw [lock_leave]
    exact s.move_loc hloc
  case wWake todo => exact Or.inl (s.lock_wakeupLoop p f _ todo hloc (fun _ => rfl) rfl)
  case wLast todo => exact Or.inl (s.lock_wakeupLoop p f _ todo hloc (fun _ => rfl) rfl)
  case rLast todo => exact Or.inl (s.lock_wakeupLoop p f _ todo hloc (fun _ => rfl) rfl)
  case cWake todo => exact Or.inl (s.lock_wakeupLoop p f _ todo hloc (fun _ => rfl) rfl)
  case wSleep => exact Or.inl (s.lock_sleep c p f none hloc rfl)
  case rSleep => exact Or.inl (s.lock_sleep c p f none hloc rfl)
  case wData => exact Or.inl (lock_goto_inside _ hloc (Frame.loc_wHead c _))
  case rStore => exact Or.inl (lock_goto_inside _ hloc (Frame.loc_rHead c _))
  case cOpen =>
    left
    cases f.op.tid <;> exact lock_goto_inside _ hloc rfl
  all_goals
    refine Or.inl (lock_goto_inside s hloc ?_)
    try split_ifs
    all_goals first | rfl | exact f.loc_rHead c

/-- Every step of the system is a step of the lock, or moves no client of it. -/
theorem step_lock {c : Config P} {s s' : Sys P} {p : P} {a : PipeAct}
    (h : s.step c p a = some s') : s.LockStep p a s' := by
  unfold step at h
  split_ifs at h
  split at h
  case h_1 op hf =>
    cases h
    left
    exact (s.lock_goto p ⟨op, 0, 0, 0, .setFlag⟩ .setFlag).trans (s.move_loc (by simp [lock, hf]; rfl))
  case h_2 f hf => exact run_lock (s := s.touch f.pc) hf h
  case h_3 ch f hf =>
    split_ifs at h with hpc
    cases h
    left
    have hloc : s.lock.loc p = .inside f.op.tid := by simp [lock, hf, Frame.loc, hpc]
    cases ch <;> exact lock_goto_inside s hloc rfl
  case h_4 ok f hf =>
    split_ifs at h with hpc
    cases h
    left
    have hloc : s.lock.loc p = .inside f.op.tid := by simp [lock, hf, Frame.loc, hpc]
    cases ok <;> exact lock_goto_inside _ hloc rfl
  case h_5 =>
    cases h
    left
    simp only [lock, Lock.mk.injEq, true_and]
    funext q
    by_cases hq : q = p
    · subst hq
      cases hfr : s.frame q <;> simp
    · simp [Function.update_of_ne hq]
  case h_6 => cases h

/-- No process starts to enter on a side on which another one is entering or inside. -/
def SoleEntry (s : Sys P) (a : P × PipeAct) : Prop :=
  ∀ side, s.Enters a.1 a.2 side → ∀ q, q ≠ a.1 → (s.lock.loc q).side ≠ some side

end Sys

section Exclusion

variable [DecidableEq P] {c : Config P}

theorem PipeInit.loc_out {s : Sys P} (h : PipeInit s) (p : P) : s.lock.loc p = .out := by
  simp [Sys.lock, h.frame p]

/-- In a run that meets `SoleEntry` every process is alone on its side, and the lock is fair
to all. -/
theorem lock_of_soleEntry {s : Sys P} (h : (pipeMachine c).ReachWhen Sys.SoleEntry s) :
    s.lock.Sole (fun _ => True) ∧ s.lock.Fair (fun _ => True) := by
  refine h.invariant (I := fun s => s.lock.Sole (fun _ => True) ∧ s.lock.Fair (fun _ => True)) ?_ ?_
  · intro s h
    refine ⟨fun p q side _ hp _ => ?_, Lock.fair_of_out h.loc_out⟩
    rw [h.loc_out p] at hp
    cases hp
  · intro s a s' _ ⟨hsole, hfair⟩ hC hs
    rcases Sys.step_lock hs with heq | ⟨e, he, hent⟩
    · rw [heq]
      exact ⟨hsole, hfair⟩
    · refine ⟨he.sole hsole fun q side hq => ?_, he.fair hsole hfair⟩
      obtain ⟨rfl, hen⟩ := hent q side hq
      exact hC side hen

/-- At most one process at a time is inside, in every state of every run in which no process
starts to enter on a side that is taken. -/
theorem inside_unique_of_soleEntry {s : Sys P}
    (h : (pipeMachine c).ReachWhen Sys.SoleEntry s) {p q : P} (hp : s.Inside p)
    (hq : s.Inside q) : p = q := by
  obtain ⟨hsole, hfair⟩ := lock_of_soleEntry h
  obtain ⟨side, hp⟩ := hp
  obtain ⟨side', hq⟩ := hq
  exact hfair.exclusive hsole trivial trivial hp hq

end Exclusion

/-- Two processes, in slots 0 and 1, each on a CPU of its own. -/
def twoProcs (m : SleepModel) : Config (Fin 2) where
  sleep := m
  table := [0, 1]
  mycpu p := p

/-- A process that enters alone is inside, and no other is. -/
theorem inside_unique_one_writer : ∃ s, (pipeMachine (twoProcs .source)).ReachWhen Sys.SoleEntry s ∧
    s.Inside 0 ∧ ∀ q, s.Inside q → q = 0 := by
  have hsole : ∀ {s : Sys (Fin 2)} {a : PipeAct}, s.frame 1 = none → s.SoleEntry (0, a) := by
    intro s a h side _ q hq
    obtain rfl : q = 1 := Fin.eq_one_of_ne_zero q hq
    simp [Sys.lock, h, Loc.side]
  have h0 := Machine.ReachWhen.init (M := pipeMachine (twoProcs .source)) (C := Sys.SoleEntry)
    (freshPipe_init (Fin 2))
  have h1 := h0.step (a := (0, .call (.pipewrite 1))) (hsole rfl) rfl
  have h2 := h1.step (a := (0, .run)) (hsole rfl) rfl
  have h3 := h2.step (a := (0, .run)) (hsole rfl) rfl
  have h4 := h3.step (a := (0, .run)) (hsole rfl) rfl
  exact ⟨_, h4, ⟨.zero, rfl⟩, fun q hq => inside_unique_of_soleEntry h4 hq ⟨.zero, rfl⟩⟩

/-- Two writers enter one after the other, and both are inside. -/
theorem two_writers_inside : ¬∀ s, (pipeMachine (twoProcs .source)).Reachable s →
    ∀ p q, s.Inside p → s.Inside q → p = q := by
  obtain ⟨s, hs, h0, h1⟩ := Machine.reachable_of_exec (M := pipeMachine (twoProcs .source))
    (freshPipe_init (Fin 2))
    (List.flatten [[(0, .call (.pipewrite 1)), (1, .call (.pipewrite 1))], runs 3 0, runs 3 1])
    (fun s => s.lock.loc 0 = .inside .zero ∧ s.lock.loc 1 = .inside .zero) (by decide +kernel)
  intro h
  exact absurd (h s hs 0 1 ⟨_, h0⟩ ⟨_, h1⟩) (by decide)

/-! ## One writer and one reader -/

/-- A call a process of the pair may make : the writer, process 0, writes and the reader,
process 1, reads. -/
def OwnOp : Side → PipeOp → Bool
  | .zero, .pipewrite _ => true
  | .one, .piperead _ => true
  | _, _ => false

/-- An action of the pair; `kills` says whether they may be killed. -/
def OwnAct (kills : Bool) (a : Side × PipeAct) : Bool :=
  match a.2 with
  | .call op => OwnOp a.1 op
  | .kill => kills
  | _ => true

/-- One writer process and one reader process on a pipe, both ends open. -/
def pairMachine (c : Config Side) (kills : Bool) : Machine (Sys Side) (Side × PipeAct) where
  init := PipeInit
  step s a := if OwnAct kills a then s.step c a.1 a.2 else none

/-- The writer and the reader in slots 0 and 1, each on a CPU of its own. -/
def pairProcs (m : SleepModel) : Config Side where
  sleep := m
  table := [.zero, .one]
  mycpu
    | .zero => 0
    | .one => 1

theorem tid_of_ownOp {e : Side} {op : PipeOp} (h : OwnOp e op = true) : op.tid = e := by
  cases e <;> cases op <;> simp_all [OwnOp, PipeOp.tid]

theorem Frame.side_loc {f : Frame P} {side : Side} (h : f.loc.side = some side) :
    side = f.op.tid := by
  unfold Frame.loc at h
  split at h <;> simp_all [Loc.side]

section Pair

variable {c : Config Side} {kills : Bool} {C : Sys Side → Side × PipeAct → Prop}

theorem pairMachine_step {s s' : Sys Side} {a : Side × PipeAct} :
    (pairMachine c kills).step s a = some s' ↔
      OwnAct kills a = true ∧ s.step c a.1 a.2 = some s' := by
  simp only [pairMachine]
  split_ifs with h <;> simp [h]

/-- Each of the pair is in a call of its own kind. -/
theorem pair_ownOp {s : Sys Side} (h : (pairMachine c kills).ReachWhen C s) :
    ∀ e f, s.frame e = some f → OwnOp e f.op = true := by
  refine h.invariant (I := fun s => ∀ e f, s.frame e = some f → OwnOp e f.op = true) ?_ ?_
  · intro s h e f hf
    rw [h.frame e] at hf
    cases hf
  · rintro s ⟨p, a⟩ s' _ ih _ hs e f' hf'
    obtain ⟨hown, hs⟩ := pairMachine_step.mp hs
    rcases Sys.step_op hs hf' with ⟨f, hf, hop⟩ | ⟨rfl, ha⟩
    · rw [← hop]
      exact ih e f hf
    · obtain rfl : a = .call f'.op := ha
      exact hown

/-- The side a process of the pair is on is its own. -/
theorem pair_side {s : Sys Side} (h : (pairMachine c kills).ReachWhen C s) {e side : Side}
    (he : (s.lock.loc e).side = some side) : side = e := by
  cases hf : s.frame e with
  | none => simp [Sys.lock, hf, Loc.side] at he
  | some f =>
    simp only [Sys.lock, hf, locOf_some] at he
    rw [Frame.side_loc he]
    exact tid_of_ownOp (pair_ownOp h e f hf)

/-- A run of the pair is a run of the pipe code in which no process enters on a side that is
taken. -/
theorem pair_soleEntry {s : Sys Side} (h : (pairMachine c kills).ReachWhen C s) :
    (pipeMachine c).ReachWhen Sys.SoleEntry s := by
  induction h with
  | init h => exact .init h
  | @step s s' a h hC hs ih =>
    refine .step ih ?_ (pairMachine_step.mp hs).2
    rintro side ⟨-, f, hf, -, rfl⟩ q hq hqs
    apply hq
    rw [← pair_side h hqs]
    exact tid_of_ownOp (pair_ownOp h a.1 f hf)

/-- The lock of the pair keeps them apart. -/
theorem pair_fair {s : Sys Side} (h : (pairMachine c kills).ReachWhen C s) :
    s.lock.Fair fun _ => True :=
  (lock_of_soleEntry (pair_soleEntry h)).2

end Pair

end Xv6
