import Xv6.Dispatch

/-!
# What a step does to the families of processes

The parent links, the ZOMBIEs and the processes asleep in kwait are changed by kfork, kexit,
`reparent` and kwait only. `Kernel.Kin` lists these changes with the place in the code where each is
made, and has one case, `unrelated`, for all the other steps : those that leave every parent link
and every ZOMBIE as they are and put no process to sleep in kwait. `step_kin` is proved by
going through the code.

`Kernel.event` says which steps begin and end the life of a process : the kfork that makes
it, its call of kexit, the moment it becomes a ZOMBIE, and the kwait that returns its pid.
-/

namespace Xv6

/-- In a section of `wait_lock`. -/
def ThreadPc.holdsWait : ThreadPc → Bool
  | .exitReparent _ _ | .exitZombie _ | .waitScan _ _ _ | .waitKilled _ | .waitSleep _ => true
  | .wakeup _ _ next => next.holdsWait
  | _ => false

/-- In kexit, the status it was called with. -/
def ThreadPc.exitStatus : ThreadPc → Option Int
  | .exiting status | .exitReparent status _ | .exitZombie status => some status
  | .wakeup _ _ next => next.exitStatus
  | _ => none

/-- The process has been started and has not exited. -/
def ProcState.live : ProcState → Bool
  | .sleeping | .runnable | .running => true
  | _ => false

/-- The places at which the next step of a thread may be an event. -/
def ThreadPc.eventful : ThreadPc → Bool
  | .forkAlloc (_ :: _) | .exitZombie _ | .waitScan _ _ (_ :: _) => true
  | _ => false

/-- What happens in the life of a process. -/
inductive FamilyEvent
  /-- The kfork of `p` makes the process in slot `x`. -/
  | fork (p x : Slot)
  /-- `p` calls kexit. -/
  | kexit (p : Slot) (status : Int)
  /-- `p` becomes a ZOMBIE. -/
  | zombie (p : Slot)
  /-- The kwait of `p` returns the pid of `x`. -/
  | reap (p x : Slot)
  deriving DecidableEq, Repr

/-- A change of a slot that is none of its family's business. -/
structure Unrelated (q q' : Proc) : Prop where
  parent : ∀ r, q'.parent = some r → q.parent = some r
  zombie : q'.state = .zombie ↔ q.state = .zombie
  unused : q'.state = .unused ↔ q.state = .unused
  live : q.state.live = true → q'.state.live = true
  asleep : ∀ r, q'.state = .sleeping → q'.chan = some (.proc r) →
    q.state = .sleeping ∧ q.chan = some (.proc r)
  kept : q.state = .zombie → q'.xstate = q.xstate ∧ q'.pid = q.pid

/-- A change of a thread's place outside the sections of `wait_lock`. -/
structure UnrelatedPc (pc pc' : ThreadPc) : Prop where
  holds : pc.holdsWait = true ∨ pc'.holdsWait = true → pc' = pc
  forks : ∀ np, pc'.forks = some np → pc.forks = some np

theorem UnrelatedPc.refl (pc : ThreadPc) : UnrelatedPc pc pc :=
  ⟨fun _ => rfl, fun _ => id⟩

/-- The thread enters a call that has no child and no lock. -/
theorem UnrelatedPc.enter {pc pc' : ThreadPc} (h : pc.holdsWait = false) (h' : pc'.holdsWait = false)
    (hforks : pc'.forks = none) : UnrelatedPc pc pc' := by
  refine ⟨fun hor => ?_, fun np hnp => ?_⟩
  · simp [h, h'] at hor
  · rw [hforks] at hnp
    cases hnp

namespace Unrelated

theorem refl (q : Proc) : Unrelated q q :=
  ⟨fun _ => id, Iff.rfl, Iff.rfl, id, fun _ => And.intro, fun _ => ⟨rfl, rfl⟩⟩

/-- A slot that is not a ZOMBIE, keeps its parent, and does not fall asleep. -/
theorem of_state {q q' : Proc} (hparent : ∀ r, q'.parent = some r → q.parent = some r)
    (hz : q.state ≠ .zombie) (hz' : q'.state ≠ .zombie)
    (hu : q'.state = .unused ↔ q.state = .unused) (hlive : q.state.live = true → q'.state.live = true)
    (hs : q'.state ≠ .sleeping) : Unrelated q q' :=
  ⟨hparent, by simp [hz, hz'], hu, hlive, fun r h => absurd h hs, fun h => absurd h hz⟩

theorem wakeup (q : Proc) (chan : Option Chan) : Unrelated q (q.wakeup chan) := by
  unfold Proc.wakeup
  split_ifs with h
  · exact of_state (fun _ => id) (by simp [h.1]) (by simp) (by simp [h.1]) (fun _ => rfl) (by simp)
  · exact refl q

theorem of_slotStep {q q' : Proc} (h : SlotStep q q') (hparent : q'.parent = q.parent) :
    Unrelated q q' := by
  cases h with
  | refl => exact refl q
  | decay =>
    unfold Proc.decay
    split_ifs
    · exact ⟨fun _ => id, Iff.rfl, Iff.rfl, id, fun _ => And.intro, fun _ => ⟨rfl, rfl⟩⟩
    · exact ⟨fun _ => id, Iff.rfl, Iff.rfl, id, fun _ => And.intro, fun _ => ⟨rfl, rfl⟩⟩
    · exact refl q
  | waits hr =>
    exact ⟨fun _ => id, Iff.rfl, Iff.rfl, id, fun _ => And.intro, fun _ => ⟨rfl, rfl⟩⟩
  | wakeup chan => exact wakeup q chan
  | adopt r hne =>
    dsimp only at hparent
    obtain rfl := hparent
    exact refl q

theorem kkill (q : Proc) : Unrelated q q.kkill := by
  unfold Proc.kkill
  by_cases h : q.state = .sleeping
  · simp only [h, if_true]
    exact of_state (fun _ => id) (by simp [h]) (by simp) (by simp [h]) (fun _ => rfl) (by simp)
  · simp only [h, if_false]
    exact ⟨fun _ => id, Iff.rfl, Iff.rfl, id, fun _ => And.intro, fun _ => ⟨rfl, rfl⟩⟩

theorem of_running {q q' : Proc} (h : q.state = .running) (hstate : q'.state.live = true)
    (hparent : q'.parent = q.parent) (hchan : ∀ r, q'.state = .sleeping → q'.chan ≠ some (.proc r)) :
    Unrelated q q' := by
  refine ⟨fun r hr => hparent ▸ hr, ?_, ?_, fun _ => hstate, fun r hs hc => absurd hc (hchan r hs),
    fun hz => by simp [h] at hz⟩
  · simp only [h, reduceCtorEq, iff_false]
    rintro hz
    simp [hz, ProcState.live] at hstate
  · simp only [h, reduceCtorEq, iff_false]
    rintro hz
    simp [hz, ProcState.live] at hstate

end Unrelated

/-! ## The scheduler -/

/-- The parent links and `wait_lock` are the same. -/
def Mem.SameKin (m m' : Mem) : Prop :=
  m'.waitLock = m.waitLock ∧ ∀ x, (m'.proc x).parent = (m.proc x).parent

theorem Mem.SameKin.of_proc {m m' : Mem} (hlock : m'.waitLock = m.waitLock)
    (hproc : m'.proc = m.proc) : m.SameKin m' :=
  ⟨hlock, fun x => by rw [hproc]⟩

theorem Mem.SameKin.of_setProc {m : Mem} {p : Slot} {q : Proc}
    (h : q.parent = (m.proc p).parent) : m.SameKin (m.setProc p q) := by
  refine ⟨rfl, fun x => ?_⟩
  by_cases hx : x = p
  · rw [hx, Mem.setProc_self, h]
  · rw [Mem.setProc_of_ne hx]

theorem visit_sameKin (pass : Pass) (p : Slot) (m : Mem) (l : Locals) :
    m.SameKin (visit pass p m l).1 := by
  cases pass with
  | step0 | passC => exact .of_proc (by simp [visit]) (by simp [visit])
  | step1 =>
    refine .of_setProc ?_
    unfold Proc.decay
    split_ifs <;> rfl
  | passA =>
    refine .of_proc ?_ (visitA_table p m l).1
    simp only [visit, visitA, choose]
    split_ifs
    all_goals first | rfl | (split <;> rfl)
  | passB =>
    refine .of_proc ?_ (visitB_table p m l).1
    simp only [visit, visitB]
    split_ifs <;> rfl
  | step4 =>
    simp only [visit, visit4]
    split_ifs
    · exact .of_setProc rfl
    · exact .of_proc rfl rfl

theorem afterScan_waitLock (pass : Pass) (m : Mem) (l : Locals) :
    (afterScan pass m l).1.waitLock = m.waitLock := by
  unfold afterScan
  split <;> (try split) <;> rfl

theorem dispatch_sameKin (m : Mem) (l : Locals) (p : Slot) : m.SameKin (dispatch m l p) := by
  unfold dispatch
  dsimp only
  split_ifs
  · exact .of_setProc (m := m) rfl
  · exact .of_setProc (m := m) rfl

/-- A step of the scheduler keeps the families. -/
theorem schedStep_sameKin {m m' : Mem} {l l' : Locals} {pc pc' : SchedPc}
    (h : schedStep m l pc = some (m', l', pc')) : m.SameKin m' := by
  have hafter : ∀ pass m₁ l₁, m.SameKin m₁ → m.SameKin (afterScan pass m₁ l₁).1 :=
    fun pass m₁ l₁ h₁ => ⟨(afterScan_waitLock ..).trans h₁.1, fun x => by
      rw [afterScan_proc]
      exact h₁.2 x⟩
  cases schedStep_cases h with
  | top | select | idle | gone => exact .of_proc rfl rfl
  | @next pass p _ _ _ hv =>
    have hk := visit_sameKin pass p m l
    rwa [hv] at hk
  | @found pass p _ _ _ hv =>
    have hk := visit_sameKin pass p m l
    rw [hv] at hk
    exact hafter _ _ _ hk
  | done => exact hafter _ _ _ (.of_proc rfl rfl)
  | throttle =>
    refine .of_proc ?_ (throttle_proc m)
    unfold throttle
    dsimp only
    split_ifs <;> rfl
  | dispatch => exact dispatch_sameKin ..

namespace Kernel

variable {n : ℕ}

/-- The event of the next step of CPU `c`, if the step is one. -/
def event (s : Kernel n) (c : Fin n) (a : KAct) : Option FamilyEvent :=
  match a, (s.cpu c).proc with
  | .run ok, some p =>
    match (s.thread p).pc with
    | .forkAlloc (x :: _) =>
      if (s.mem.proc x).state = .unused ∧ ok = true then some (.fork p x) else none
    | .exitZombie _ => some (.zombie p)
    | .waitScan addr _ (x :: _) =>
      if (s.mem.proc x).parent = some p ∧ (s.mem.proc x).state = .zombie ∧ (addr && !ok) = false then
        some (.reap p x)
      else none
    | _ => none
  | .call x, some p =>
    match x, (s.thread p).pc with
    | .exit status, .user => some (.kexit p status)
    | .die _, .user => some (.kexit p (-1))
    | _, _ => none
  | .intr, some p =>
    match (s.cpu c).intr with
    | some (.killed _) => if (s.mem.proc p).killed then some (.kexit p (-1)) else none
    | _ => none
  | _, _ => none

/-- The thread of `p` goes on at `pc`, and the others stay where they are. -/
def Goes (s s' : Kernel n) (p : Slot) (pc : ThreadPc) : Prop :=
  ∀ r, (s'.thread r).pc = if r = p then pc else (s.thread r).pc

/-- What the step `a` of CPU `c` does to the families. -/
inductive Kin (s : Kernel n) (c : Fin n) (a : KAct) (s' : Kernel n) : Prop
  /-- No family is concerned, or a process calls kexit. -/
  | unrelated (hlock : s'.mem.waitLock = s.mem.waitLock)
    (hproc : ∀ y, Unrelated (s.mem.proc y) (s'.mem.proc y))
    (hpc : ∀ r, UnrelatedPc (s.thread r).pc (s'.thread r).pc)
    (hstatus : ∀ r st, (s'.thread r).pc.exitStatus = some st →
      (s.thread r).pc.exitStatus = some st ∨ s.event c a = some (.kexit r st))
    (hev : s.event c a = none ∨ ∃ r st, s.event c a = some (.kexit r st) ∧ r ≠ initproc ∧
      (s.cpu c).proc = some r ∧ (s'.thread r).pc.exitStatus = some st)
  /-- kfork makes a child. -/
  | alloc (p x : Slot) (todo : List Slot) (q : Proc) (pid : Int) (hrun : (s.cpu c).proc = some p)
    (hpc : (s.thread p).pc = .forkAlloc (x :: todo)) (hx : (s.mem.proc x).state = .unused)
    (hlock : s'.mem.waitLock = s.mem.waitLock)
    (hproc : s'.mem.proc = Function.update s.mem.proc x q) (hq : q.state = .used)
    (hparent : q.parent = (s.mem.proc x).parent)
    (hgoes : ∀ r, (s'.thread r).pc =
      if r = p then .forkParent x pid else if r = x then .user else (s.thread r).pc)
    (hev : s.event c a = some (.fork p x))
  /-- kfork sets the child's parent. -/
  | parent (p x : Slot) (pid : Int) (hrun : (s.cpu c).proc = some p)
    (hpc : (s.thread p).pc = .forkParent x pid) (hfree : s.mem.waitLock = none)
    (hlock : s'.mem.waitLock = s.mem.waitLock)
    (hproc : s'.mem.proc = Function.update s.mem.proc x { s.mem.proc x with parent := some p })
    (hgoes : s.Goes s' p (.forkRun x pid)) (hev : s.event c a = none)
  /-- kexit and kwait acquire `wait_lock`. -/
  | enter (p : Slot) (pc : ThreadPc) (hrun : (s.cpu c).proc = some p)
    (hintr : (s.cpu c).intr = none) (hcpu : s'.cpu = s.cpu)
    (hpc : (∃ st, (s.thread p).pc = .exiting st ∧ pc = .exitReparent st table) ∨
      ∃ addr, (s.thread p).pc = .waitLock addr ∧ pc = .waitScan addr false table)
    (hfree : s.mem.waitLock = none) (hlock : s'.mem.waitLock = some p)
    (hproc : s'.mem.proc = s.mem.proc) (hgoes : s.Goes s' p pc) (hev : s.event c a = none)
  /-- `reparent` passes a process, or gives a child to init. -/
  | reparent (p x : Slot) (st : Int) (todo : List Slot) (hrun : (s.cpu c).proc = some p)
    (hpc : (s.thread p).pc = .exitReparent st (x :: todo))
    (hlock : s'.mem.waitLock = s.mem.waitLock)
    (hcase : (s.mem.proc x).parent ≠ some p ∧ s'.mem.proc = s.mem.proc ∧
        s.Goes s' p (.exitReparent st todo) ∨
      (s.mem.proc x).parent = some p ∧
        s'.mem.proc = Function.update s.mem.proc x { s.mem.proc x with parent := some initproc } ∧
        s.Goes s' p (.wakeup (some (.proc initproc)) table (.exitReparent st todo)))
    (hev : s.event c a = none)
  /-- kexit wakes the parent up. -/
  | rouse (p : Slot) (st : Int) (hrun : (s.cpu c).proc = some p)
    (hpc : (s.thread p).pc = .exitReparent st []) (hlock : s'.mem.waitLock = s.mem.waitLock)
    (hproc : s'.mem.proc = s.mem.proc)
    (hgoes : s.Goes s' p (.wakeup ((s.mem.proc p).parent.map .proc) table (.exitZombie st)))
    (hev : s.event c a = none)
  /-- `wakeup` in kexit. -/
  | wake (p x : Slot) (chan : Option Chan) (todo : List Slot) (next : ThreadPc)
    (hrun : (s.cpu c).proc = some p) (hpc : (s.thread p).pc = .wakeup chan (x :: todo) next)
    (hnext : next.holdsWait = true) (hlock : s'.mem.waitLock = s.mem.waitLock)
    (hproc : s'.mem.proc = Function.update s.mem.proc x
      (if x = p then s.mem.proc x else (s.mem.proc x).wakeup chan))
    (hgoes : s.Goes s' p (.wakeup chan todo next)) (hev : s.event c a = none)
  /-- `wakeup` in kexit returns. -/
  | woken (p : Slot) (chan : Option Chan) (next : ThreadPc) (hrun : (s.cpu c).proc = some p)
    (hpc : (s.thread p).pc = .wakeup chan [] next) (hnext : next.holdsWait = true)
    (hlock : s'.mem.waitLock = s.mem.waitLock) (hproc : s'.mem.proc = s.mem.proc)
    (hgoes : s.Goes s' p next) (hev : s.event c a = none)
  /-- kexit ends. -/
  | zombie (p : Slot) (st : Int) (hrun : (s.cpu c).proc = some p)
    (hpc : (s.thread p).pc = .exitZombie st) (hlock : s'.mem.waitLock = none)
    (hproc : s'.mem.proc = Function.update s.mem.proc p ((s.mem.proc p).exit st))
    (hgoes : ∀ r, (s'.thread r).pc = (s.thread r).pc) (hev : s.event c a = some (.zombie p))
  /-- kwait passes a process that is not a ZOMBIE child. -/
  | scan (p x : Slot) (addr havekids havekids' : Bool) (todo : List Slot)
    (hrun : (s.cpu c).proc = some p) (hpc : (s.thread p).pc = .waitScan addr havekids (x :: todo))
    (hx : (s.mem.proc x).parent = some p → (s.mem.proc x).state ≠ .zombie)
    (hlock : s'.mem.waitLock = s.mem.waitLock) (hproc : s'.mem.proc = s.mem.proc)
    (hgoes : s.Goes s' p (.waitScan addr havekids' todo)) (hev : s.event c a = none)
  /-- kwait has found no ZOMBIE. -/
  | scanned (p : Slot) (addr : Bool) (pc : ThreadPc) (hrun : (s.cpu c).proc = some p)
    (hpc : (∃ havekids, (s.thread p).pc = .waitScan addr havekids [] ∧ pc = .waitKilled addr) ∨
      (s.thread p).pc = .waitKilled addr ∧ pc = .waitSleep addr)
    (hlock : s'.mem.waitLock = s.mem.waitLock) (hproc : s'.mem.proc = s.mem.proc)
    (hgoes : s.Goes s' p pc) (hev : s.event c a = none)
  /-- kwait falls asleep. -/
  | sleep (p : Slot) (addr : Bool) (hrun : (s.cpu c).proc = some p)
    (hpc : (s.thread p).pc = .waitSleep addr) (hlock : s'.mem.waitLock = none)
    (hproc : s'.mem.proc = Function.update s.mem.proc p ((s.mem.proc p).sleep (.proc p)))
    (hgoes : s.Goes s' p (.waitLock addr)) (hev : s.event c a = none)
  /-- kwait fails. -/
  | fail (p : Slot) (hrun : (s.cpu c).proc = some p)
    (hpc : (∃ addr havekids todo, (s.thread p).pc = .waitScan addr havekids todo) ∨
      ∃ addr, (s.thread p).pc = .waitKilled addr)
    (hlock : s'.mem.waitLock = none) (hproc : s'.mem.proc = s.mem.proc)
    (hgoes : s.Goes s' p .user) (hret : (s'.thread p).ret = -1) (hev : s.event c a = none)
  /-- kwait returns a child. -/
  | reap (p x : Slot) (addr havekids : Bool) (todo : List Slot) (hrun : (s.cpu c).proc = some p)
    (hpc : (s.thread p).pc = .waitScan addr havekids (x :: todo))
    (hparent : (s.mem.proc x).parent = some p) (hx : (s.mem.proc x).state = .zombie)
    (hlock : s'.mem.waitLock = none)
    (hproc : s'.mem.proc = Function.update s.mem.proc x (s.mem.proc x).freeproc)
    (hgoes : s.Goes s' p .user) (hret : (s'.thread p).ret = (s.mem.proc x).pid)
    (hstored : addr = true → (s'.thread p).stored = some (s.mem.proc x).xstate)
    (hev : s.event c a = some (.reap p x))

variable {s s' : Kernel n} {c : Fin n} {a : KAct} {p : Slot}

/-- The next step of a thread is an event at three places only. -/
theorem event_run {ok : Bool} {pc : ThreadPc} (hrun : (s.cpu c).proc = some p)
    (hpc : (s.thread p).pc = pc) (hq : pc.eventful = false) : s.event c (.run ok) = none := by
  unfold event
  rw [hrun]
  dsimp only
  rw [hpc]
  split <;> first | rfl | cases hq

theorem event_waitScan {ok addr havekids : Bool} {x : Slot} {todo : List Slot}
    (hrun : (s.cpu c).proc = some p) (hpc : (s.thread p).pc = .waitScan addr havekids (x :: todo)) :
    s.event c (.run ok) = if (s.mem.proc x).parent = some p ∧ (s.mem.proc x).state = .zombie ∧
      (addr && !ok) = false then some (.reap p x) else none := by
  unfold event
  rw [hrun]
  dsimp only
  rw [hpc]

theorem unrelated_of_update {x : Slot} {q : Proc}
    (hproc : s'.mem.proc = Function.update s.mem.proc x q) (hq : Unrelated (s.mem.proc x) q)
    (y : Slot) : Unrelated (s.mem.proc y) (s'.mem.proc y) := by
  rw [hproc]
  by_cases hy : y = x
  · rwa [hy, Function.update_self]
  · rw [Function.update_of_ne hy]
    exact .refl _

theorem unrelated_of_eq (hproc : s'.mem.proc = s.mem.proc) (y : Slot) :
    Unrelated (s.mem.proc y) (s'.mem.proc y) :=
  hproc ▸ .refl _

theorem goes_of_thread {t : Thread} {pc : ThreadPc}
    (h : s'.thread = Function.update s.thread p t) (hpc : t.pc = pc) : s.Goes s' p pc := by
  subst hpc
  intro r
  rw [h]
  by_cases hr : r = p
  · rw [hr, Function.update_self, if_pos rfl]
  · rw [Function.update_of_ne hr, if_neg hr]

theorem goes_self (h : ∀ r, (s'.thread r).pc = (s.thread r).pc) : s.Goes s' p (s.thread p).pc := by
  intro r
  rw [h]
  split_ifs with hr
  · rw [hr]
  · rfl

/-- A step of the thread of `p` that is none of its family's business. -/
theorem Kin.goes {pc : ThreadPc} (hlock : s'.mem.waitLock = s.mem.waitLock)
    (hproc : ∀ y, Unrelated (s.mem.proc y) (s'.mem.proc y)) (hgoes : s.Goes s' p pc)
    (hpc : UnrelatedPc (s.thread p).pc pc)
    (hst : pc.exitStatus = none ∨ pc.exitStatus = (s.thread p).pc.exitStatus)
    (hev : s.event c a = none) : Kin s c a s' := by
  refine .unrelated hlock hproc (fun r => ?_) (fun r st h => Or.inl ?_) (Or.inl hev)
  · rw [hgoes]
    split_ifs with hr
    · rwa [hr]
    · exact .refl _
  · rw [hgoes] at h
    split_ifs at h with hr
    · obtain hst | hst := hst
      · simp [hst] at h
      · rw [hr, ← hst, h]
    · exact h

/-- A step that no thread takes part in. -/
theorem Kin.quiet (hlock : s'.mem.waitLock = s.mem.waitLock)
    (hproc : ∀ y, Unrelated (s.mem.proc y) (s'.mem.proc y))
    (hpc : ∀ r, (s'.thread r).pc = (s.thread r).pc) (hev : s.event c a = none) : Kin s c a s' :=
  .goes (p := initproc) hlock hproc (goes_self hpc) (.refl _) (Or.inr rfl) hev

/-- A process calls kexit. -/
theorem Kin.exits (status : Int) (hlock : s'.mem.waitLock = s.mem.waitLock)
    (hproc : s'.mem.proc = s.mem.proc) (hgoes : s.Goes s' p (.exiting status))
    (hpc : (s.thread p).pc.holdsWait = false) (hp : p ≠ initproc) (hrun : (s.cpu c).proc = some p)
    (hev : s.event c a = some (.kexit p status)) : Kin s c a s' := by
  refine .unrelated hlock (unrelated_of_eq hproc) (fun r => ?_) (fun r st h => ?_)
    (Or.inr ⟨p, status, hev, hp, hrun, ?_⟩)
  · rw [hgoes]
    split_ifs with hr
    · exact .enter (hr ▸ hpc) rfl rfl
    · exact .refl _
  · rw [hgoes] at h
    split_ifs at h with hr
    · cases h
      exact Or.inr (hr ▸ hev)
    · exact Or.inl h
  · rw [hgoes, if_pos rfl]
    rfl

theorem sleep_kin {chan : Chan} (hchan : ∀ r, chan ≠ .proc r)
    (hr : (s.mem.proc p).state = .running) (hev : s.event c a = none) :
    Kin s c a (s.sleep c p chan) := by
  refine .quiet rfl (unrelated_of_update (q := (s.mem.proc p).sleep chan) rfl
    (.of_running hr rfl rfl fun r _ h => hchan r (Option.some.inj h))) (fun r => ?_) hev
  by_cases hrp : r = p
  · simp [Kernel.sleep, Kernel.sched, setCpu, setThread, hrp]
  · simp [Kernel.sleep, Kernel.sched, setCpu, setThread, setProc, hrp]

theorem call_kin {x : Call} (hrun : (s.cpu c).proc = some p) (hpc : (s.thread p).pc = .user)
    (hr : (s.mem.proc p).state = .running) (h : s.call c p x = some s') :
    Kin s c (.call x) s' := by
  have enter : ∀ {pc : ThreadPc}, pc.holdsWait = false → pc.forks = none →
      UnrelatedPc (s.thread p).pc pc := fun h₁ h₂ => .enter (by rw [hpc]; rfl) h₁ h₂
  cases x with
  | fork | kill | wait | wakeup =>
    cases h
    exact .goes rfl (unrelated_of_eq rfl) (goes_of_thread rfl rfl) (enter rfl rfl) (Or.inl rfl)
      (by simp [event, hrun])
  | exit status =>
    simp only [call, Option.ite_none_left_eq_some, Option.some.injEq] at h
    obtain ⟨hp, rfl⟩ := h
    exact .exits status rfl rfl (goes_of_thread rfl rfl) (by rw [hpc]; rfl) hp hrun
      (by simp [event, hrun, hpc])
  | die intena =>
    simp only [call, Option.ite_none_right_eq_some, Option.some.injEq, Bool.and_eq_true,
      decide_eq_true_eq] at h
    obtain ⟨⟨-, hp⟩, rfl⟩ := h
    exact .exits (-1) rfl rfl (goes_of_thread rfl rfl) (by rw [hpc]; rfl) hp hrun
      (by simp [event, hrun, hpc])
  | sleep | pause =>
    cases h
    exact sleep_kin (by simp) hr (by simp [event, hrun])
  | setkilled | exec | growproc =>
    cases h
    refine .quiet rfl (unrelated_of_update rfl (.of_running hr ?_ rfl fun r hs => ?_)) (fun _ => rfl)
      (by simp [event, hrun])
    · simp [Proc.setkilled, hr, ProcState.live]
    · simp [Proc.setkilled, hr] at hs

theorem callExiting_kin {x : Call} {status : Int} (hrun : (s.cpu c).proc = some p)
    (hpc : (s.thread p).pc = .exiting status) (hr : (s.mem.proc p).state = .running)
    (h : s.callExiting c p status x = some s') : Kin s c (.call x) s' := by
  cases x with
  | sleep =>
    cases h
    exact sleep_kin (by simp) hr (by simp [event, hrun])
  | wakeup =>
    cases h
    exact .goes rfl (unrelated_of_eq rfl) (goes_of_thread rfl rfl) (.enter (by rw [hpc]; rfl) rfl rfl)
      (Or.inr (by rw [hpc]; rfl)) (by simp [event, hrun])
  | _ => cases h

theorem forkAlloc_kin {x : Slot} {todo : List Slot} {ok : Bool} (hrun : (s.cpu c).proc = some p)
    (hpc : (s.thread p).pc = .forkAlloc (x :: todo)) (hx : (s.mem.proc x).state = .unused) :
    Kin s c (.run ok) (s.forkAlloc p x ok) := by
  cases ok with
  | false =>
    refine .goes rfl (unrelated_of_update rfl ?_) (goes_of_thread rfl rfl)
      (.enter (by rw [hpc]; rfl) rfl rfl) (Or.inl rfl) (by simp [event, hrun, hpc])
    exact .of_state (fun r h => by cases h) (by simp [hx]) (by simp [Proc.freeproc])
      (by simp [hx, Proc.freeproc]) (by simp [hx, ProcState.live]) (by simp [Proc.freeproc])
  | true =>
    refine .alloc p x todo _ s.mem.nextpid hrun hpc hx rfl rfl rfl rfl (fun r => ?_)
      (by simp [event, hrun, hpc, hx])
    by_cases hrp : r = p
    · simp [forkAlloc, goto, setThread, hrp]
    · by_cases hrx : r = x
      · simp [forkAlloc, goto, setThread, hrx, Thread.forkret, hrx ▸ hrp]
      · simp [forkAlloc, goto, setThread, hrp, hrx, setProc]

/-! ## The calls -/

/-- `wakeup`, in kexit or elsewhere. -/
theorem runWakeup_kin {ok : Bool} {chan : Option Chan} {todo : List Slot} {next : ThreadPc}
    (hrun : (s.cpu c).proc = some p) (hpc : (s.thread p).pc = .wakeup chan todo next)
    (h : s.run c p ok = some s') : Kin s c (.run ok) s' := by
  have hev : s.event c (.run ok) = none := event_run hrun hpc rfl
  cases todo with
  | nil =>
    simp only [run, hpc] at h
    cases h
    cases hnext : next.holdsWait with
    | true => exact .woken p chan next hrun hpc hnext rfl rfl (goes_of_thread rfl rfl) hev
    | false =>
      exact .goes rfl (unrelated_of_eq rfl) (goes_of_thread rfl rfl)
        ⟨fun hor => by simp [hpc, ThreadPc.holdsWait, hnext] at hor, fun np hnp => by rw [hpc]; exact hnp⟩
        (Or.inr (by rw [hpc]; rfl)) hev
  | cons x todo =>
    simp only [run, hpc] at h
    cases h
    have hproc : (if x = p then s else s.setProc x ((s.mem.proc x).wakeup chan)).mem.proc =
        Function.update s.mem.proc x
          (if x = p then s.mem.proc x else (s.mem.proc x).wakeup chan) := by
      split_ifs
      · exact (Function.update_eq_self x s.mem.proc).symm
      · rfl
    have hgoes : s.Goes ((if x = p then s else s.setProc x ((s.mem.proc x).wakeup chan)).goto p
        (.wakeup chan todo next)) p (.wakeup chan todo next) := by
      split_ifs
      · exact goes_of_thread rfl rfl
      · exact goes_of_thread rfl rfl
    have hlock : ((if x = p then s else s.setProc x ((s.mem.proc x).wakeup chan)).goto p
        (.wakeup chan todo next)).mem.waitLock = s.mem.waitLock := by
      split_ifs <;> rfl
    cases hnext : next.holdsWait with
    | true => exact .wake p x chan todo next hrun hpc hnext hlock hproc hgoes hev
    | false =>
      refine .goes hlock (unrelated_of_update hproc ?_) hgoes
        ⟨fun hor => by simp [hpc, ThreadPc.holdsWait, hnext] at hor, fun np hnp => by rw [hpc]; exact hnp⟩
        (Or.inr (by rw [hpc]; rfl)) hev
      split_ifs
      · exact .refl _
      · exact .wakeup _ chan

/-- kexit from where it acquires `wait_lock`. -/
theorem runExit_kin {ok : Bool} {st : Int} (hrun : (s.cpu c).proc = some p)
    (hintr : (s.cpu c).intr = none) (h : s.run c p ok = some s')
    (hpc : (s.thread p).pc = .exiting st ∨ (∃ todo, (s.thread p).pc = .exitReparent st todo) ∨
      (s.thread p).pc = .exitZombie st) : Kin s c (.run ok) s' := by
  obtain hpc | ⟨_ | ⟨x, todo⟩, hpc⟩ | hpc := hpc
  · simp only [run, hpc] at h
    obtain ⟨hfree, rfl⟩ := of_guard h
    exact .enter p _ hrun hintr rfl (Or.inl ⟨st, hpc, rfl⟩) hfree rfl rfl (goes_of_thread rfl rfl)
      (event_run hrun hpc rfl)
  · simp only [run, hpc] at h
    cases h
    exact .rouse p st hrun hpc rfl rfl (goes_of_thread rfl rfl) (event_run hrun hpc rfl)
  · simp only [run, hpc] at h
    cases h
    split_ifs with hx
    · exact .reparent p x st todo hrun hpc rfl (Or.inr ⟨hx, rfl, goes_of_thread rfl rfl⟩)
        (event_run hrun hpc rfl)
    · exact .reparent p x st todo hrun hpc rfl (Or.inl ⟨hx, rfl, goes_of_thread rfl rfl⟩)
        (event_run hrun hpc rfl)
  · simp only [run, hpc] at h
    cases h
    exact .zombie p st hrun hpc rfl rfl (fun _ => rfl) (by simp [event, hrun, hpc])

theorem reap_kin {x : Slot} {addr havekids ok : Bool} {todo : List Slot}
    (hrun : (s.cpu c).proc = some p) (hpc : (s.thread p).pc = .waitScan addr havekids (x :: todo))
    (hparent : (s.mem.proc x).parent = some p) (hx : (s.mem.proc x).state = .zombie) :
    Kin s c (.run ok) (s.reap p x addr ok) := by
  unfold Kernel.reap
  dsimp only
  split_ifs with hfail haddr
  · exact .fail p hrun (Or.inl ⟨_, _, _, hpc⟩) rfl rfl (goes_of_thread rfl rfl)
      (by simp [ret, setThread]) (by simp [event_waitScan hrun hpc, hfail])
  · exact .reap p x addr havekids todo hrun hpc hparent hx rfl rfl (goes_of_thread rfl rfl)
      (by simp [setThread, setWaitLock]) (fun _ => by simp [setThread, setWaitLock])
      (by simpa [event_waitScan hrun hpc, hparent, hx] using hfail)
  · exact .reap p x addr havekids todo hrun hpc hparent hx rfl rfl (goes_of_thread rfl rfl)
      (by simp [setThread, setWaitLock]) (fun h => absurd h haddr)
      (by simpa [event_waitScan hrun hpc, hparent, hx] using hfail)

/-- kwait. -/
theorem runWait_kin {ok addr : Bool} (hrun : (s.cpu c).proc = some p)
    (hintr : (s.cpu c).intr = none) (h : s.run c p ok = some s')
    (hpc : (s.thread p).pc = .waitLock addr ∨
      (∃ havekids todo, (s.thread p).pc = .waitScan addr havekids todo) ∨
      (s.thread p).pc = .waitKilled addr ∨ (s.thread p).pc = .waitSleep addr) :
    Kin s c (.run ok) s' := by
  obtain hpc | ⟨havekids, _ | ⟨x, todo⟩, hpc⟩ | hpc | hpc := hpc
  · simp only [run, hpc] at h
    obtain ⟨hfree, rfl⟩ := of_guard h
    exact .enter p _ hrun hintr rfl (Or.inr ⟨addr, hpc, rfl⟩) hfree rfl rfl (goes_of_thread rfl rfl)
      (event_run hrun hpc rfl)
  · simp only [run, hpc] at h
    cases h
    split_ifs
    · exact .scanned p addr _ hrun (Or.inl ⟨_, hpc, rfl⟩) rfl rfl (goes_of_thread rfl rfl)
        (event_run hrun hpc rfl)
    · exact .fail p hrun (Or.inl ⟨_, _, _, hpc⟩) rfl rfl (goes_of_thread rfl rfl)
        (by simp [ret, setThread]) (event_run hrun hpc rfl)
  · simp only [run, hpc] at h
    cases h
    split_ifs with hparent hx
    · exact reap_kin hrun hpc hparent hx
    · exact .scan p x addr havekids true todo hrun hpc (fun _ => hx) rfl rfl (goes_of_thread rfl rfl)
        (by simp [event_waitScan hrun hpc, hx])
    · exact .scan p x addr havekids havekids todo hrun hpc (fun hp => absurd hp hparent) rfl rfl
        (goes_of_thread rfl rfl) (by simp [event_waitScan hrun hpc, hparent])
  · simp only [run, hpc] at h
    cases h
    split_ifs
    · exact .fail p hrun (Or.inr ⟨_, hpc⟩) rfl rfl (goes_of_thread rfl rfl)
        (by simp [ret, setThread]) (event_run hrun hpc rfl)
    · exact .scanned p addr _ hrun (Or.inr ⟨hpc, rfl⟩) rfl rfl (goes_of_thread rfl rfl)
        (event_run hrun hpc rfl)
  · simp only [run, hpc] at h
    cases h
    refine .sleep p addr hrun hpc rfl rfl (fun r => ?_) (event_run hrun hpc rfl)
    by_cases hr : r = p
    · simp [Kernel.sleep, Kernel.sched, setCpu, setThread, goto, hr]
    · simp [Kernel.sleep, Kernel.sched, setCpu, setThread, goto, setProc, setWaitLock, hr]

theorem run_kin {ok : Bool} (hplaced : s.Placed) (hrun : (s.cpu c).proc = some p)
    (hintr : (s.cpu c).intr = none) (h : s.run c p ok = some s') : Kin s c (.run ok) s' := by
  have enter : ∀ {pc pc' : ThreadPc}, (s.thread p).pc = pc → pc.holdsWait = false →
      pc'.holdsWait = false → pc'.forks = none → UnrelatedPc (s.thread p).pc pc' :=
    fun h₀ h₁ h₂ h₃ => .enter (h₀ ▸ h₁) h₂ h₃
  cases hpc : (s.thread p).pc with
  | user => simp [run, hpc] at h
  | forkAlloc todo =>
    cases todo with
    | nil =>
      simp only [run, hpc] at h
      cases h
      exact .goes rfl (unrelated_of_eq rfl) (goes_of_thread rfl rfl) (enter hpc rfl rfl rfl)
        (Or.inl rfl) (event_run hrun hpc rfl)
    | cons x todo =>
      simp only [run, hpc] at h
      cases h
      split_ifs with hx
      · exact forkAlloc_kin hrun hpc hx
      · exact .goes rfl (unrelated_of_eq rfl) (goes_of_thread rfl rfl) (enter hpc rfl rfl rfl)
          (Or.inl rfl) (by simp [event, hrun, hpc, hx])
  | forkParent x pid =>
    simp only [run, hpc] at h
    obtain ⟨hfree, rfl⟩ := of_guard h
    exact .parent p x pid hrun hpc hfree rfl rfl (goes_of_thread rfl rfl) (event_run hrun hpc rfl)
  | forkRun x pid =>
    simp only [run, hpc] at h
    cases h
    have hused := hplaced.forked p x (by rw [hpc]; rfl)
    refine .goes rfl (unrelated_of_update rfl ?_) (goes_of_thread rfl rfl) (enter hpc rfl rfl rfl)
      (Or.inl rfl) (event_run hrun hpc rfl)
    exact .of_state (fun _ => id) (by simp [hused]) (by simp) (by simp [hused]) (fun _ => rfl) (by simp)
  | kill pid todo =>
    cases todo with
    | nil =>
      simp only [run, hpc] at h
      cases h
      exact .goes rfl (unrelated_of_eq rfl) (goes_of_thread rfl rfl) (enter hpc rfl rfl rfl)
        (Or.inl rfl) (event_run hrun hpc rfl)
    | cons x todo =>
      simp only [run, hpc] at h
      cases h
      split_ifs with hx
      · exact .goes rfl (unrelated_of_update rfl (.kkill _)) (goes_of_thread rfl rfl)
          (enter hpc rfl rfl rfl) (Or.inl rfl) (event_run hrun hpc rfl)
      · exact .goes rfl (unrelated_of_eq rfl) (goes_of_thread rfl rfl) (enter hpc rfl rfl rfl)
          (Or.inl rfl) (event_run hrun hpc rfl)
  | wakeup chan todo next => exact runWakeup_kin hrun hpc h
  | exiting st => exact runExit_kin hrun hintr h (Or.inl hpc)
  | exitReparent st todo => exact runExit_kin hrun hintr h (Or.inr (Or.inl ⟨todo, hpc⟩))
  | exitZombie st => exact runExit_kin hrun hintr h (Or.inr (Or.inr hpc))
  | waitLock addr => exact runWait_kin hrun hintr h (Or.inl hpc)
  | waitScan addr havekids todo =>
    exact runWait_kin hrun hintr h (Or.inr (Or.inl ⟨havekids, todo, hpc⟩))
  | waitKilled addr => exact runWait_kin hrun hintr h (Or.inr (Or.inr (Or.inl hpc)))
  | waitSleep addr => exact runWait_kin hrun hintr h (Or.inr (Or.inr (Or.inr hpc)))

/-! ## The handlers and the scheduler -/

theorem handle_kin {i : Intr} (hplaced : s.Placed) (hi : (s.cpu c).intr = some i)
    (hfree : ∀ r, (s.cpu c).proc = some r → (s.thread r).pc.holdsWait = false)
    (h : s.handle c i = some s') : Kin s c .intr s' := by
  cases i with
  | wakeup chan todo timer user =>
    have hev : s.event c .intr = none := by
      cases hp : (s.cpu c).proc <;> simp [event, hp, hi]
    cases todo with
    | nil =>
      cases h
      exact .quiet rfl (unrelated_of_eq rfl) (fun _ => rfl) hev
    | cons x todo =>
      cases h
      split_ifs with hx
      · exact .quiet rfl (unrelated_of_eq rfl) (fun _ => rfl) hev
      · exact .quiet rfl (unrelated_of_update rfl (.wakeup _ _)) (fun _ => rfl) hev
  | temp user =>
    cases h
    refine .quiet rfl (unrelated_of_eq rfl) (fun _ => rfl) ?_
    cases hp : (s.cpu c).proc <;> simp [event, hp, hi]
  | killed timer =>
    obtain ⟨p, hrun, h⟩ := Option.bind_eq_some_iff.mp h
    split_ifs at h with hk hp
    · cases h
      exact .exits (-1) rfl rfl (goes_of_thread rfl rfl) (hfree p hrun) hp hrun
        (by simp [event, hrun, hi, hk])
    · cases h
      exact .quiet rfl (unrelated_of_eq rfl) (fun _ => rfl) (by simp [event, hrun, hi, hk])
    · cases h
      exact .quiet rfl (unrelated_of_eq rfl) (fun _ => rfl) (by simp [event, hrun, hi, hk])
  | yield =>
    obtain ⟨p, hrun, rfl⟩ := Option.map_eq_some_iff.mp h
    have hr := (hplaced.running p).mpr ⟨c, hrun⟩
    exact .quiet rfl (unrelated_of_update rfl (.of_running hr rfl rfl fun r hs => by cases hs))
      (fun _ => rfl) (by simp [event, hrun, hi])

theorem schedule_kin (h : s.schedule c = some s') :
    Kin s c .sched s' := by
  have hev : s.event c .sched = none := by simp [event]
  obtain ⟨m, l, pc, hstep, -, ⟨x, q, hproc, hq⟩, rfl⟩ | ⟨p, hpc, hchosen, hr, rfl⟩ := schedule_cases h
  · have hkin := schedStep_sameKin hstep
    refine .quiet hkin.1 (unrelated_of_update hproc (.of_slotStep hq ?_)) (fun _ => rfl) hev
    have := hkin.2 x
    rwa [hproc, Function.update_self] at this
  · obtain ⟨⟨chan, hproc⟩, -, hthread, -⟩ := resume_eq ({ s with
      mem := dispatch s.mem (s.cpu c).loc p }.setCpu c { s.cpu c with pc := .swtch }) c p
    have hlock : ∀ t : Kernel n, (t.resume c p).mem.waitLock = t.mem.waitLock := by
      intro t
      unfold resume
      dsimp only
      split_ifs <;> rfl
    refine .quiet ((hlock _).trans (dispatch_sameKin s.mem (s.cpu c).loc p).1)
      (unrelated_of_update (x := p) (q := { (s.mem.proc p) with
        state := .running, waitingTick := 0, heat := (s.mem.proc p).heated, chan := chan })
        (hproc.trans ?_) ?_) hthread hev
    · simp [setCpu, Function.update_idem]
    · exact .of_state (fun _ => id) (by simp [hr]) (by simp) (by simp [hr]) (fun _ => rfl) (by simp)

/-- What a step does to the families; while a handler runs, the process it interrupted is in no
section of `wait_lock`. -/
theorem step_kin (hplaced : s.Placed)
    (hfree : ∀ r, (s.cpu c).intr ≠ none → (s.cpu c).proc = some r →
      (s.thread r).pc.holdsWait = false)
    (h : s.step c a = some s') : Kin s c a s' := by
  unfold step at h
  split at h
  case h_1 i hi => exact handle_kin hplaced hi (fun r => hfree r (by simp [hi])) h
  case h_2 user hi =>
    obtain ⟨-, rfl⟩ := of_guard h
    unfold tick
    split_ifs
    · exact .quiet rfl (unrelated_of_eq rfl) (fun _ => rfl) (by simp [event])
    · exact .quiet rfl (unrelated_of_eq rfl) (fun _ => rfl) (by simp [event])
  case h_3 addr user hi =>
    obtain ⟨-, rfl⟩ := of_guard h
    exact .quiet rfl (unrelated_of_eq rfl) (fun _ => rfl) (by simp [event])
  case h_4 hi hidle => exact schedule_kin h
  case h_5 ok p hi hrun => exact run_kin hplaced hrun hi h
  case h_6 x p hi hrun =>
    have hr := (hplaced.running p).mpr ⟨c, hrun⟩
    split at h
    · rename_i hpc
      exact call_kin hrun hpc hr h
    · rename_i status hpc
      exact callExiting_kin hrun hpc hr h
    · cases h
  case h_7 => cases h

end Kernel

end Xv6
