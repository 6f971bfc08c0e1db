import Mathlib.Tactic.SplitIfs
import Xv6.Kernel

/-!
# What a step does to the process table

Every step of the kernel writes at most one slot of the process table, and `Moved` lists the
ways : a change that any CPU may make to a slot it finds in the right state (`SlotStep`), a change
a process makes to its own slot, the sections of kkill, kfork and kwait, a process that gives
up its CPU, and a dispatch. `step_moved` is proved by going through the code once; the
invariants of the table follow from `Moved` alone.
-/

namespace Xv6

open Function (update_self update_of_ne)

/-- What happens to a slot whoever finds it so : STEP 1, STEP 4, a `wakeup`, and the new
parent that `reparent` gives to a child. -/
inductive SlotStep : Proc → Proc → Prop
  | refl (q : Proc) : SlotStep q q
  | decay (q : Proc) : SlotStep q q.decay
  | waits (q : Proc) (h : q.state = .runnable) :
    SlotStep q { q with waitingTick := q.waitingTick + 1 }
  | wakeup (q : Proc) (chan : Option Chan) : SlotStep q (q.wakeup chan)
  | adopt (q : Proc) (r : Option Slot) (h : q.parent ≠ none) : SlotStep q { q with parent := r }

/-- What a running process does to its own slot. -/
inductive OwnStep : Proc → Proc → Prop
  | setkilled (q : Proc) : OwnStep q q.setkilled
  | image (q : Proc) (name : List Char) (sz : ℕ) : OwnStep q { q with name := name, sz := sz }

/-- How a process leaves its CPU. -/
inductive LeaveStep : Proc → Proc → Prop
  | yield (q : Proc) : LeaveStep q { q with state := .runnable }
  | sleep (q : Proc) (chan : Chan) : LeaveStep q (q.sleep chan)
  | exit (q : Proc) (status : Int) : LeaveStep q (q.exit status)

/-- A RUNNABLE process is given a CPU. -/
def Dispatched (q q' : Proc) : Prop :=
  q.state = .runnable ∧ ∃ chan, q' =
    { q with state := .running, waitingTick := 0, heat := q.heated, chan := chan }

/-- The child of a kfork in progress. -/
def ThreadPc.forks : ThreadPc → Option Slot
  | forkParent np _ | forkRun np _ => some np
  | wakeup _ _ next => next.forks
  | _ => none

namespace Kernel

variable {n : ℕ}

/-- Every CPU runs what it ran, and no kfork has a child it had not. -/
structure Quiet (s s' : Kernel n) : Prop where
  cpu : ∀ d, (s'.cpu d).proc = (s.cpu d).proc
  forks : ∀ q np, (s'.thread q).pc.forks = some np → (s.thread q).pc.forks = some np

/-- What the step `a` of CPU `c` does to the process table. -/
inductive Moved (s : Kernel n) (c : Fin n) (a : KAct) (s' : Kernel n) : Prop
  /-- A slot found in the right state. -/
  | slot (x : Slot) (q : Proc) (hproc : s'.mem.proc = Function.update s.mem.proc x q)
    (hq : SlotStep (s.mem.proc x) q) (hquiet : s.Quiet s')
  /-- The process's own slot. -/
  | own (p : Slot) (q : Proc) (hrun : (s.cpu c).proc = some p)
    (hproc : s'.mem.proc = Function.update s.mem.proc p q) (hq : OwnStep (s.mem.proc p) q)
    (hquiet : s.Quiet s')
  /-- kkill marks the process it found. -/
  | kill (p x : Slot) (pid : Int) (todo : List Slot) (ok : Bool) (ha : a = .run ok)
    (hrun : (s.cpu c).proc = some p)
    (hpc : (s.thread p).pc = .kill pid (x :: todo)) (hpid : (s.mem.proc x).pid = pid)
    (hproc : s'.mem.proc = Function.update s.mem.proc x (s.mem.proc x).kkill)
    (hret : s'.thread p = { s.thread p with pc := .user, ret := 0 }) (hquiet : s.Quiet s')
  /-- kfork takes a free slot, for a child with the parent's size and name. -/
  | alloc (p x : Slot) (todo : List Slot) (ok : Bool) (sz : ℕ) (name : List Char)
    (ha : a = .run ok) (hrun : (s.cpu c).proc = some p)
    (hpc : (s.thread p).pc = .forkAlloc (x :: todo)) (hx : (s.mem.proc x).state = .unused)
    (hproc : s'.mem.proc = Function.update s.mem.proc x
      { (s.mem.proc x).allocproc s.mem.nextpid with sz := sz, name := name })
    (hcpu : ∀ d, (s'.cpu d).proc = (s.cpu d).proc)
    (hforks : ∀ q np, (s'.thread q).pc.forks = some np →
      (s.thread q).pc.forks = some np ∨ (q = p ∧ np = x))
    (hp : (s'.thread p).pc.forks = some x)
  /-- kfork fails, and the slot is free again. -/
  | allocFail (p x : Slot) (todo : List Slot) (ok : Bool) (ha : a = .run ok)
    (hrun : (s.cpu c).proc = some p) (hpc : (s.thread p).pc = .forkAlloc (x :: todo))
    (hx : (s.mem.proc x).state = .unused)
    (hproc : s'.mem.proc = Function.update s.mem.proc x
      ((s.mem.proc x).allocproc s.mem.nextpid).freeproc)
    (hquiet : s.Quiet s')
  /-- kfork sets the child's parent. -/
  | parent (p np : Slot) (hforks : (s.thread p).pc.forks = some np)
    (hproc : s'.mem.proc = Function.update s.mem.proc np { s.mem.proc np with parent := some p })
    (hquiet : s.Quiet s')
  /-- kfork makes the child RUNNABLE, and returns. -/
  | start (p np : Slot) (hforks : (s.thread p).pc.forks = some np)
    (hproc : s'.mem.proc = Function.update s.mem.proc np
      { s.mem.proc np with state := .runnable })
    (hdone : (s'.thread p).pc.forks = none) (hquiet : s.Quiet s')
  /-- kwait frees a ZOMBIE. -/
  | reap (x : Slot) (hx : (s.mem.proc x).state = .zombie)
    (hproc : s'.mem.proc = Function.update s.mem.proc x (s.mem.proc x).freeproc)
    (hquiet : s.Quiet s')
  /-- A process leaves its CPU. -/
  | leave (p : Slot) (q : Proc) (hrun : (s.cpu c).proc = some p)
    (hproc : s'.mem.proc = Function.update s.mem.proc p q) (hq : LeaveStep (s.mem.proc p) q)
    (hcpu : ∀ d, (s'.cpu d).proc = if d = c then none else (s.cpu d).proc)
    (hforks : ∀ q np, (s'.thread q).pc.forks = some np → (s.thread q).pc.forks = some np)
  /-- STEP 5 of the scheduler. -/
  | dispatch (p : Slot) (q : Proc) (hidle : (s.cpu c).proc = none)
    (hpc : (s.cpu c).pc = .step5) (hchosen : (s.cpu c).loc.chosen = some p)
    (hproc : s'.mem.proc = Function.update s.mem.proc p q) (hq : Dispatched (s.mem.proc p) q)
    (hcpu : ∀ d, (s'.cpu d).proc = if d = c then some p else (s.cpu d).proc)
    (hforks : ∀ q np, (s'.thread q).pc.forks = some np → (s.thread q).pc.forks = some np)

variable {s s' : Kernel n} {c : Fin n} {a : KAct}

theorem Moved.idle (hproc : s'.mem.proc = s.mem.proc) (hquiet : s.Quiet s') : Moved s c a s' :=
  .slot initproc _ (by rw [hproc, Function.update_eq_self]) (.refl _) hquiet

/-! ## The scheduler -/

/-- A scan changes the slot it visits, if any. -/
theorem visit_slot (pass : Pass) (p : Slot) (m : Mem) (l : Locals) :
    ∃ q, (visit pass p m l).1.proc = Function.update m.proc p q ∧ SlotStep (m.proc p) q := by
  have same : (visit pass p m l).1.proc = m.proc →
      ∃ q, (visit pass p m l).1.proc = Function.update m.proc p q ∧ SlotStep (m.proc p) q :=
    fun h => ⟨m.proc p, by rw [h, Function.update_eq_self], .refl _⟩
  cases pass
  case step0 | passC => exact same (by simp [visit])
  case step1 => exact ⟨_, rfl, .decay _⟩
  case passA => exact same (visitA_table p m l).1
  case passB => exact same (visitB_table p m l).1
  case step4 =>
    simp only [visit, visit4]
    split_ifs with hr
    · exact ⟨_, rfl, .waits _ hr.1⟩
    · exact ⟨m.proc p, (Function.update_eq_self p m.proc).symm, .refl _⟩

/-- A step of the scheduler changes the slot it is at, or dispatches the chosen process. -/
theorem schedStep_slot {m m' : Mem} {l l' : Locals} {pc pc' : SchedPc}
    (h : schedStep m l pc = some (m', l', pc')) :
    (pc' ≠ .swtch ∧ ∃ x q, m'.proc = Function.update m.proc x q ∧ SlotStep (m.proc x) q) ∨
    (pc' = .swtch ∧ pc = .step5 ∧ l' = l ∧ ∃ p, l.chosen = some p ∧
      (m.proc p).state = .runnable ∧ m' = dispatch m l p) := by
  have same : pc' ≠ .swtch → m'.proc = m.proc →
      (pc' ≠ .swtch ∧ ∃ x q, m'.proc = Function.update m.proc x q ∧ SlotStep (m.proc x) q) :=
    fun hpc heq => ⟨hpc, initproc, _, by rw [heq, Function.update_eq_self], .refl _⟩
  cases schedStep_cases h with
  | top hpass => exact Or.inl (same (by simp) rfl)
  | @next pass p todo _ _ hv =>
    obtain ⟨q, hq, hstep⟩ := visit_slot pass p m l
    rw [hv] at hq
    exact Or.inl ⟨by simp, p, q, hq, hstep⟩
  | @found pass p todo m₁ l₁ hv =>
    obtain ⟨q, hq, hstep⟩ := visit_slot pass p m l
    rw [hv] at hq
    exact Or.inl ⟨afterScan_pc _ _ _, p, q, (afterScan_proc ..).trans hq, hstep⟩
  | done => exact Or.inl (same (afterScan_pc _ _ _) (afterScan_proc ..))
  | throttle htemp => exact Or.inl (same (by simp) (throttle_proc m))
  | select htemp => exact Or.inl (same (by simp) rfl)
  | idle hc => exact Or.inl (same (by simp) rfl)
  | dispatch hc hr => exact Or.inr ⟨rfl, rfl, rfl, _, hc, hr, rfl⟩
  | gone hc hr => exact Or.inl (same (by simp) rfl)

/-! ## The threads and the handlers -/

/-- The CPUs stay, and the thread of `p` has the child it had or none. -/
theorem Quiet.of_thread {p : Slot} {t : Thread} (hcpu : s'.cpu = s.cpu)
    (hthread : s'.thread = Function.update s.thread p t)
    (h : ∀ np, t.pc.forks = some np → (s.thread p).pc.forks = some np) : s.Quiet s' := by
  refine ⟨fun d => by rw [hcpu], fun q np hq => ?_⟩
  rw [hthread] at hq
  by_cases hqp : q = p
  · subst hqp
    rw [update_self] at hq
    exact h np hq
  · rwa [update_of_ne hqp] at hq

/-- The threads stay, and CPU `c` runs what it ran. -/
theorem Quiet.of_cpu {x : Cpu} (hthread : s'.thread = s.thread)
    (hcpu : s'.cpu = Function.update s.cpu c x) (h : x.proc = (s.cpu c).proc) : s.Quiet s' := by
  refine ⟨fun d => ?_, fun q np hq => by rwa [hthread] at hq⟩
  rw [hcpu]
  by_cases hd : d = c
  · rw [hd, update_self, h]
  · rw [update_of_ne hd]

/-- The thread of `p` goes on without a child. -/
theorem Moved.goto {p : Slot} {t : Thread} (hproc : s'.mem.proc = s.mem.proc)
    (hcpu : s'.cpu = s.cpu) (hthread : s'.thread = Function.update s.thread p t)
    (h : t.pc.forks = none) : Moved s c a s' :=
  .idle hproc (.of_thread hcpu hthread fun np hnp => by rw [h] at hnp; cases hnp)

theorem cpu_sched (d : Fin n) :
    ((s.sched c).cpu d).proc = if d = c then none else (s.cpu d).proc := by
  unfold sched setCpu
  by_cases hd : d = c
  · simp [hd]
  · simp [hd]

theorem sleep_moved {p : Slot} {chan : Chan} (hrun : (s.cpu c).proc = some p) :
    Moved s c a (s.sleep c p chan) := by
  refine .leave p _ hrun rfl (.sleep _ chan) (fun d => cpu_sched d) fun q np hq => ?_
  by_cases hqp : q = p
  · subst hqp
    simpa [sleep, sched, setCpu, setThread, setProc] using hq
  · simpa [sleep, sched, setCpu, setThread, setProc, hqp] using hq

theorem call_moved {p : Slot} {x : Call} (hrun : (s.cpu c).proc = some p)
    (h : s.call c p x = some s') : Moved s c a s' := by
  cases x with
  | fork | kill | wait | wakeup =>
    cases h
    exact .goto rfl rfl rfl rfl
  | exit status =>
    simp only [call, Option.ite_none_left_eq_some, Option.some.injEq] at h
    obtain ⟨-, rfl⟩ := h
    exact .goto rfl rfl rfl rfl
  | die intena =>
    obtain ⟨-, rfl⟩ := of_guard h
    exact .goto rfl rfl rfl rfl
  | sleep | pause =>
    cases h
    exact sleep_moved hrun
  | setkilled =>
    cases h
    exact .own p _ hrun rfl (.setkilled _) ⟨fun _ => rfl, fun _ _ hq => hq⟩
  | exec | growproc =>
    cases h
    exact .own p _ hrun rfl (.image _ _ _) ⟨fun _ => rfl, fun _ _ hq => hq⟩

theorem callExiting_moved {p : Slot} {status : Int} {x : Call} (hrun : (s.cpu c).proc = some p)
    (h : s.callExiting c p status x = some s') : Moved s c a s' := by
  cases x with
  | sleep =>
    cases h
    exact sleep_moved hrun
  | wakeup =>
    cases h
    exact .goto rfl rfl rfl rfl
  | _ => cases h

theorem forkAlloc_moved {p x : Slot} {todo : List Slot} {ok : Bool} (hrun : (s.cpu c).proc = some p)
    (hpc : (s.thread p).pc = .forkAlloc (x :: todo)) (hx : (s.mem.proc x).state = .unused) :
    Moved s c (.run ok) (s.forkAlloc p x ok) := by
  cases ok with
  | false =>
    exact .allocFail p x todo _ rfl hrun hpc hx rfl (.of_thread (p := p) rfl rfl fun np hnp => by cases hnp)
  | true =>
    refine .alloc p x todo _ _ _ rfl hrun hpc hx rfl (fun d => rfl) (fun q np hq => ?_) ?_
    · by_cases hqp : q = p
      · subst hqp
        simp only [forkAlloc, if_true, goto, setThread, update_self, ThreadPc.forks,
          Option.some.injEq] at hq
        exact Or.inr ⟨rfl, hq.symm⟩
      · simp only [forkAlloc, if_true, goto, setThread, update_of_ne hqp] at hq
        by_cases hqx : q = x
        · subst hqx
          simp [Thread.forkret, ThreadPc.forks] at hq
        · rw [update_of_ne hqx] at hq
          exact Or.inl hq
    · simp [forkAlloc, goto, setThread, ThreadPc.forks]

theorem run_moved {p : Slot} {ok : Bool} (hrun : (s.cpu c).proc = some p)
    (h : s.run c p ok = some s') : Moved s c (.run ok) s' := by
  unfold run at h
  split at h
  case h_1 => cases h
  case h_2 =>
    cases h
    exact .goto rfl rfl rfl rfl
  case h_3 x todo hpc =>
    cases h
    split_ifs with hx
    · exact forkAlloc_moved hrun hpc hx
    · exact .goto rfl rfl rfl rfl
  case h_4 np pid hpc =>
    obtain ⟨-, rfl⟩ := of_guard h
    exact .parent p np (by rw [hpc]; rfl) rfl
      (.of_thread (p := p) rfl rfl fun x hx => by rw [hpc]; exact hx)
  case h_5 np pid hpc =>
    cases h
    exact .start p np (by rw [hpc]; rfl) rfl (by simp [ret, setThread, ThreadPc.forks])
      (.of_thread (p := p) rfl rfl fun x hx => by cases hx)
  case h_6 =>
    cases h
    exact .goto rfl rfl rfl rfl
  case h_7 pid x todo hpc =>
    cases h
    split_ifs with hx
    · exact .kill p x pid todo ok rfl hrun hpc hx rfl (by simp [ret, setThread, setProc])
        (.of_thread (p := p) rfl rfl fun y hy => by cases hy)
    · exact .goto rfl rfl rfl rfl
  case h_8 chan next hpc =>
    cases h
    exact .idle rfl (.of_thread (p := p) rfl rfl fun x hx => by rw [hpc]; exact hx)
  case h_9 chan x todo next hpc =>
    cases h
    have hquiet : ∀ r : Kernel n, r.cpu = s.cpu → r.thread = s.thread →
        s.Quiet (r.goto p (.wakeup chan todo next)) := by
      intro r hcpu hthread
      refine .of_thread (p := p) hcpu (by rw [goto, setThread, hthread]) fun y hy => ?_
      rw [hpc]
      exact hy
    split_ifs with hxp
    · exact .idle rfl (hquiet s rfl rfl)
    · exact .slot x _ rfl (.wakeup _ chan) (hquiet _ rfl rfl)
  case h_10 =>
    obtain ⟨-, rfl⟩ := of_guard h
    exact .goto rfl rfl rfl rfl
  case h_11 =>
    cases h
    exact .goto rfl rfl rfl rfl
  case h_12 status x todo hpc =>
    cases h
    split_ifs with hx
    · exact .slot x _ rfl (.adopt _ _ (by rw [hx]; simp))
        (.of_thread (p := p) rfl rfl fun y hy => by cases hy)
    · exact .goto rfl rfl rfl rfl
  case h_13 status hpc =>
    cases h
    exact .leave p _ hrun rfl (.exit _ status) (fun d => cpu_sched d) fun _ _ hq => hq
  case h_14 =>
    obtain ⟨-, rfl⟩ := of_guard h
    exact .goto rfl rfl rfl rfl
  case h_15 =>
    cases h
    split_ifs
    · exact .goto rfl rfl rfl rfl
    · exact .goto rfl rfl rfl rfl
  case h_16 addr havekids x todo hpc =>
    cases h
    split_ifs with hpar hz
    · unfold reap
      dsimp only
      by_cases hfail : (addr && !ok) = true
      · rw [if_pos hfail]
        exact .goto rfl rfl rfl rfl
      · rw [if_neg hfail]
        exact .reap x hz rfl (.of_thread (p := p) rfl rfl fun y hy => by cases hy)
    · exact .goto rfl rfl rfl rfl
    · exact .goto rfl rfl rfl rfl
  case h_17 =>
    cases h
    split_ifs
    · exact .goto rfl rfl rfl rfl
    · exact .goto rfl rfl rfl rfl
  case h_18 addr hpc =>
    cases h
    refine .leave p _ hrun rfl (.sleep _ (.proc p)) (fun d => cpu_sched d) fun q np hq => ?_
    by_cases hqp : q = p
    · subst hqp
      simp [sleep, sched, setCpu, setThread, setProc, goto, setWaitLock, ThreadPc.forks] at hq
    · simpa [sleep, sched, setCpu, setThread, setProc, goto, setWaitLock, hqp] using hq

theorem handle_moved {i : Intr} (h : s.handle c i = some s') : Moved s c a s' := by
  cases i with
  | wakeup chan todo timer user =>
    cases todo with
    | nil =>
      cases h
      exact .idle rfl (.of_cpu rfl rfl rfl)
    | cons x todo =>
      cases h
      split_ifs with hx
      · exact .idle rfl (.of_cpu rfl rfl rfl)
      · exact .slot x _ rfl (.wakeup _ _) (.of_cpu rfl rfl rfl)
  | temp user =>
    cases h
    exact .idle rfl (.of_cpu rfl rfl rfl)
  | killed timer =>
    obtain ⟨p, hrun, h⟩ := Option.bind_eq_some_iff.mp h
    split_ifs at h
    · cases h
      have hquiet : s.Quiet (s.setThread p { s.thread p with pc := .exiting (-1), intena := false }) :=
        .of_thread rfl rfl fun np hnp => by cases hnp
      have hquiet' : s.Quiet (s.setIntr c none) := .of_cpu rfl rfl rfl
      exact .idle rfl ⟨hquiet'.cpu, hquiet.forks⟩
    · cases h
      exact .idle rfl (.of_cpu rfl rfl rfl)
    · cases h
      exact .idle rfl (.of_cpu rfl rfl rfl)
  | yield =>
    obtain ⟨p, hrun, rfl⟩ := Option.map_eq_some_iff.mp h
    exact .leave p _ hrun rfl (.yield _) (fun d => cpu_sched d) fun _ _ hq => hq

theorem tick_moved (user : Bool) : Moved s c a (s.tick c user) := by
  unfold tick
  split_ifs
  · exact .idle rfl (.of_cpu rfl rfl rfl)
  · exact .idle rfl (.of_cpu rfl rfl rfl)

/-- The `swtch` to `p` gives it the CPU and clears its channel. -/
theorem resume_eq (s : Kernel n) (c : Fin n) (p : Slot) :
    (∃ chan, (s.resume c p).mem.proc =
      Function.update s.mem.proc p { s.mem.proc p with chan := chan }) ∧
    (∀ d, ((s.resume c p).cpu d).proc = if d = c then some p else (s.cpu d).proc) ∧
    (∀ q, ((s.resume c p).thread q).pc = (s.thread q).pc) ∧
    ((s.resume c p).cpu c).pc = (s.cpu c).pc := by
  have hcpu : ∀ d, ((Function.update s.cpu c { s.cpu c with proc := some p }) d).proc =
      if d = c then some p else (s.cpu d).proc := by
    intro d
    by_cases hd : d = c
    · simp [hd]
    · simp [hd]
  unfold resume
  dsimp only
  split_ifs
  · refine ⟨⟨none, rfl⟩, hcpu, fun q => ?_, by simp [setThread, setProc, setCpu]⟩
    by_cases hq : q = p
    · simp [setThread, setProc, setCpu, hq]
    · simp [setThread, setProc, setCpu, hq]
  · exact ⟨⟨(s.mem.proc p).chan, (Function.update_eq_self p s.mem.proc).symm⟩, hcpu, fun _ => rfl,
      by simp [setCpu]⟩

/-- A step of the scheduler on CPU `c` : one that stays in it, or the dispatch. -/
theorem schedule_cases (h : s.schedule c = some s') :
    (∃ m l pc, schedStep s.mem (s.cpu c).loc (s.cpu c).pc = some (m, l, pc) ∧ pc ≠ .swtch ∧
      (∃ x q, m.proc = Function.update s.mem.proc x q ∧ SlotStep (s.mem.proc x) q) ∧
      s' = { s with mem := m }.setCpu c { s.cpu c with loc := l, pc := pc }) ∨
    ∃ p, (s.cpu c).pc = .step5 ∧ (s.cpu c).loc.chosen = some p ∧
      (s.mem.proc p).state = .runnable ∧
      s' = ({ s with mem := dispatch s.mem (s.cpu c).loc p }.setCpu c
        { s.cpu c with pc := .swtch }).resume c p := by
  obtain ⟨⟨m, l, pc⟩, hstep, rfl⟩ := Option.map_eq_some_iff.mp h
  obtain ⟨hpc, hslot⟩ | ⟨rfl, hpc, rfl, p, hchosen, hr, rfl⟩ := schedStep_slot hstep
  · refine Or.inl ⟨m, l, pc, hstep, hpc, hslot, ?_⟩
    cases pc with
    | swtch => exact absurd rfl hpc
    | _ => rfl
  · refine Or.inr ⟨p, hpc, hchosen, hr, ?_⟩
    dsimp only
    simp only [hchosen]

theorem schedule_moved (hidle : (s.cpu c).proc = none) (h : s.schedule c = some s') :
    Moved s c a s' := by
  obtain ⟨m, l, pc, -, -, ⟨x, q, hproc, hq⟩, rfl⟩ | ⟨p, hpc, hchosen, hr, rfl⟩ := schedule_cases h
  · exact .slot x q hproc hq (.of_cpu rfl rfl rfl)
  · obtain ⟨⟨chan, hproc⟩, hcpu, hthread, -⟩ := resume_eq ({ s with
      mem := dispatch s.mem (s.cpu c).loc p }.setCpu c { s.cpu c with pc := .swtch }) c p
    refine .dispatch p _ hidle hpc hchosen (hproc.trans ?_) ⟨hr, chan, rfl⟩ (fun d => ?_)
      fun q np hq => ?_
    · simp [setCpu, Function.update_idem]
    · rw [hcpu]
      by_cases hd : d = c
      · simp [hd]
      · simp [hd, setCpu]
    · rw [hthread] at hq
      exact hq

theorem step_sched (h : s.step c .sched = some s') :
    (s.cpu c).proc = none ∧ (s.cpu c).intr = none ∧ s.schedule c = some s' := by
  cases hi : (s.cpu c).intr with
  | some i => simp [step, hi] at h
  | none =>
    cases hp : (s.cpu c).proc with
    | some p => simp [step, hi, hp] at h
    | none => exact ⟨rfl, rfl, by simpa [step, hi, hp] using h⟩

/-- What a step does to the process table. -/
theorem step_moved (h : s.step c a = some s') : Moved s c a s' := by
  unfold step at h
  split at h
  case h_1 i hi => exact handle_moved h
  case h_2 user hi =>
    obtain ⟨-, rfl⟩ := of_guard h
    exact tick_moved user
  case h_3 addr user hi =>
    obtain ⟨-, rfl⟩ := of_guard h
    exact .idle rfl (.of_cpu rfl rfl rfl)
  case h_4 hi hidle => exact schedule_moved hidle h
  case h_5 ok p hi hrun => exact run_moved hrun h
  case h_6 x p hi hrun =>
    split at h
    · exact call_moved hrun h
    · exact callExiting_moved hrun h
    · cases h
  case h_7 => cases h

/-- A property of every slot, after a change of one. -/
theorem slots_of_update {P : Proc → Prop} {x : Slot} {q : Proc} (h : ∀ y, P (s.mem.proc y))
    (hproc : s'.mem.proc = Function.update s.mem.proc x q) (hq : P q) (y : Slot) :
    P (s'.mem.proc y) := by
  rw [hproc]
  by_cases hy : y = x
  · rwa [hy, update_self]
  · rw [update_of_ne hy]
    exact h y

end Kernel

end Xv6
