import Xv6.KernelSteps
import Xv6.Quantum

/-!
# No process runs twice

The scheduler holds no lock between choosing a process and dispatching it. The invariant that makes
this safe is `Kernel.Placed` : the RUNNING processes are those that some CPU has as its `c->proc`, no
two CPUs have the same, and the child of a kfork in progress is USED and no other's. It is
kept by every step (`Placed.step`), because a slot leaves RUNNABLE for RUNNING only under its
lock, after the test of STEP 5.
-/

namespace Xv6

open Function (update_self update_of_ne)

theorem SlotStep.running {q q' : Proc} (h : SlotStep q q') :
    q'.state = .running ↔ q.state = .running := by
  cases h with
  | refl | waits | adopt => exact Iff.rfl
  | decay => rw [Proc.decay_state]
  | wakeup chan =>
    unfold Proc.wakeup
    split_ifs with hs
    · simp [hs.1]
    · exact Iff.rfl

theorem SlotStep.used {q q' : Proc} (h : SlotStep q q') (hq : q.state = .used) :
    q'.state = .used := by
  cases h with
  | refl | waits | adopt => exact hq
  | decay => rw [Proc.decay_state, hq]
  | wakeup chan => simp [Proc.wakeup, hq]

theorem OwnStep.state {q q' : Proc} (h : OwnStep q q') : q'.state = q.state := by
  cases h <;> rfl

theorem LeaveStep.not_running {q q' : Proc} (h : LeaveStep q q') : q'.state ≠ .running := by
  cases h <;> simp [Proc.sleep, Proc.exit]

namespace Kernel

variable {n : ℕ}

/-- The RUNNING processes are placed, one on each CPU that runs one. -/
structure Placed (s : Kernel n) : Prop where
  running : ∀ p, (s.mem.proc p).state = .running ↔ ∃ c, (s.cpu c).proc = some p
  sole : ∀ c d p, (s.cpu c).proc = some p → (s.cpu d).proc = some p → c = d
  forked : ∀ q np, (s.thread q).pc.forks = some np → (s.mem.proc np).state = .used
  forkedOnce : ∀ q r np, (s.thread q).pc.forks = some np → (s.thread r).pc.forks = some np → q = r

theorem boot_placed (n : ℕ) : (boot n).Placed := by
  refine ⟨fun p => ?_, fun c d p h => ?_, fun q np h => ?_, fun q r np h => ?_⟩
  · refine ⟨fun h => ?_, fun ⟨c, h⟩ => by cases h⟩
    by_cases hp : p = initproc
    · subst hp
      cases h
    · rw [boot_state hp] at h
      cases h
  all_goals cases h

variable {s s' : Kernel n} {c : Fin n}

/-! ## One step -/

/-- A change of one slot that is neither to nor from RUNNING, nor from USED. -/
theorem Placed.of_update {x : Slot} {q : Proc} (h : s.Placed)
    (hproc : s'.mem.proc = Function.update s.mem.proc x q)
    (hrun : q.state = .running ↔ (s.mem.proc x).state = .running)
    (hused : (s.mem.proc x).state = .used → q.state = .used) (hquiet : s.Quiet s') :
    s'.Placed := by
  refine ⟨fun p => ?_, fun d e p => ?_, fun r np hr => ?_, fun r t np hr ht => ?_⟩
  · simp only [hquiet.cpu]
    rw [← h.running, hproc]
    by_cases hp : p = x
    · rw [hp, update_self, hrun]
    · rw [update_of_ne hp]
  · simp only [hquiet.cpu]
    exact h.sole d e p
  · have hold := h.forked r np (hquiet.forks r np hr)
    rw [hproc]
    by_cases hnp : np = x
    · subst hnp
      rw [update_self]
      exact hused hold
    · rwa [update_of_ne hnp]
  · exact h.forkedOnce r t np (hquiet.forks r np hr) (hquiet.forks t np ht)

theorem Placed.alloc {p x : Slot} {q : Proc} (h : s.Placed)
    (hx : (s.mem.proc x).state = .unused)
    (hproc : s'.mem.proc = Function.update s.mem.proc x q) (hq : q.state = .used)
    (hcpu : ∀ d, (s'.cpu d).proc = (s.cpu d).proc)
    (hforks : ∀ r np, (s'.thread r).pc.forks = some np →
      (s.thread r).pc.forks = some np ∨ (r = p ∧ np = x))
    (hp : (s'.thread p).pc.forks = some x) : s'.Placed := by
  -- no kfork before the step has the free slot as its child
  have hfresh : ∀ r np, (s.thread r).pc.forks = some np → np ≠ x := by
    rintro r np hr rfl
    rw [h.forked r np hr] at hx
    cases hx
  refine ⟨fun y => ?_, fun d e y => ?_, fun r np hr => ?_, fun r t np hr ht => ?_⟩
  · simp only [hcpu]
    rw [← h.running, hproc]
    by_cases hy : y = x
    · simp [hy, hq, hx]
    · rw [update_of_ne hy]
  · simp only [hcpu]
    exact h.sole d e y
  · rw [hproc]
    obtain hr | ⟨-, rfl⟩ := hforks r np hr
    · rw [update_of_ne (hfresh r np hr)]
      exact h.forked r np hr
    · rwa [update_self]
  · obtain hr' | ⟨rfl, rfl⟩ := hforks r np hr
    · obtain ht' | ⟨rfl, rfl⟩ := hforks t np ht
      · exact h.forkedOnce r t np hr' ht'
      · exact absurd rfl (hfresh r np hr')
    · obtain ht' | ⟨rfl, -⟩ := hforks t np ht
      · exact absurd rfl (hfresh t np ht')
      · rfl

theorem Placed.start {p np : Slot} (h : s.Placed) (hp : (s.thread p).pc.forks = some np)
    (hproc : s'.mem.proc = Function.update s.mem.proc np { s.mem.proc np with state := .runnable })
    (hdone : (s'.thread p).pc.forks = none) (hquiet : s.Quiet s') : s'.Placed := by
  have hused := h.forked p np hp
  refine ⟨fun y => ?_, fun d e y => ?_, fun r x hr => ?_, fun r t x hr ht => ?_⟩
  · simp only [hquiet.cpu]
    rw [← h.running, hproc]
    by_cases hy : y = np
    · simp [hy, hused]
    · rw [update_of_ne hy]
  · simp only [hquiet.cpu]
    exact h.sole d e y
  · have hr' := hquiet.forks r x hr
    have hx : x ≠ np := by
      rintro rfl
      rw [h.forkedOnce r p x hr' hp, hdone] at hr
      cases hr
    rw [hproc, update_of_ne hx]
    exact h.forked r x hr'
  · exact h.forkedOnce r t x (hquiet.forks r x hr) (hquiet.forks t x ht)

theorem Placed.leave {p : Slot} {q : Proc} (h : s.Placed) (hrun : (s.cpu c).proc = some p)
    (hproc : s'.mem.proc = Function.update s.mem.proc p q) (hq : q.state ≠ .running)
    (hcpu : ∀ d, (s'.cpu d).proc = if d = c then none else (s.cpu d).proc)
    (hforks : ∀ q np, (s'.thread q).pc.forks = some np → (s.thread q).pc.forks = some np) :
    s'.Placed := by
  have hold : ∀ {d y}, (s'.cpu d).proc = some y → d ≠ c ∧ (s.cpu d).proc = some y := by
    intro d y hd
    rw [hcpu] at hd
    split_ifs at hd with hdc
    exact ⟨hdc, hd⟩
  refine ⟨fun y => ?_, fun d e y hd he => ?_, fun r np hr => ?_, fun r t np hr ht => ?_⟩
  · rw [hproc]
    by_cases hy : y = p
    · subst hy
      rw [update_self]
      refine ⟨fun hy => absurd hy hq, fun ⟨d, hd⟩ => ?_⟩
      exact absurd (h.sole d c y (hold hd).2 hrun) (hold hd).1
    · rw [update_of_ne hy, h.running]
      refine ⟨fun ⟨d, hd⟩ => ⟨d, ?_⟩, fun ⟨d, hd⟩ => ⟨d, (hold hd).2⟩⟩
      rw [hcpu, if_neg, hd]
      rintro rfl
      exact hy (Option.some.inj (hd.symm.trans hrun))
  · exact h.sole d e y (hold hd).2 (hold he).2
  · have hnp := h.forked r np (hforks r np hr)
    have hne : np ≠ p := by
      rintro rfl
      rw [(h.running np).mpr ⟨c, hrun⟩] at hnp
      cases hnp
    rwa [hproc, update_of_ne hne]
  · exact h.forkedOnce r t np (hforks r np hr) (hforks t np ht)

theorem Placed.dispatch {p : Slot} {q : Proc} (h : s.Placed) (hidle : (s.cpu c).proc = none)
    (hp : (s.mem.proc p).state = .runnable)
    (hproc : s'.mem.proc = Function.update s.mem.proc p q) (hq : q.state = .running)
    (hcpu : ∀ d, (s'.cpu d).proc = if d = c then some p else (s.cpu d).proc)
    (hforks : ∀ q np, (s'.thread q).pc.forks = some np → (s.thread q).pc.forks = some np) :
    s'.Placed := by
  -- no CPU had the process before the step
  have hnone : ∀ d, (s.cpu d).proc ≠ some p := by
    intro d hd
    rw [(h.running p).mpr ⟨d, hd⟩] at hp
    cases hp
  have hold : ∀ {d y}, (s'.cpu d).proc = some y →
      (d = c ∧ y = p) ∨ (y ≠ p ∧ (s.cpu d).proc = some y) := by
    intro d y hd
    rw [hcpu] at hd
    split_ifs at hd with hdc
    · exact Or.inl ⟨hdc, (Option.some.inj hd).symm⟩
    · refine Or.inr ⟨?_, hd⟩
      rintro rfl
      exact hnone d hd
  refine ⟨fun y => ?_, fun d e y hd he => ?_, fun r np hr => ?_, fun r t np hr ht => ?_⟩
  · rw [hproc]
    by_cases hy : y = p
    · subst hy
      rw [update_self]
      exact ⟨fun _ => ⟨c, by rw [hcpu, if_pos rfl]⟩, fun _ => hq⟩
    · rw [update_of_ne hy, h.running]
      refine ⟨fun ⟨d, hd⟩ => ⟨d, ?_⟩, fun ⟨d, hd⟩ => ⟨d, ?_⟩⟩
      · rw [hcpu, if_neg, hd]
        rintro rfl
        rw [hidle] at hd
        cases hd
      · obtain ⟨-, hyp⟩ | ⟨-, hd⟩ := hold hd
        · exact absurd hyp hy
        · exact hd
  · obtain ⟨rfl, rfl⟩ | ⟨hy, hd⟩ := hold hd
    · obtain ⟨rfl, -⟩ | ⟨hy, -⟩ := hold he
      · rfl
      · exact absurd rfl hy
    · obtain ⟨-, hyp⟩ | ⟨-, he⟩ := hold he
      · exact absurd hyp hy
      · exact h.sole d e y hd he
  · have hnp := h.forked r np (hforks r np hr)
    have hne : np ≠ p := by
      rintro rfl
      rw [hp] at hnp
      cases hnp
    rwa [hproc, update_of_ne hne]
  · exact h.forkedOnce r t np (hforks r np hr) (hforks t np ht)

theorem Placed.step {a : KAct} (h : s.Placed) (hs : s.step c a = some s') : s'.Placed := by
  cases step_moved hs with
  | slot x q hproc hq hquiet => exact h.of_update hproc hq.running hq.used hquiet
  | own p q hrun hproc hq hquiet =>
    exact h.of_update hproc (by rw [hq.state]) (by rw [hq.state]; exact id) hquiet
  | kill p x pid todo ok ha hrun hpc hpid hproc hret hquiet =>
    refine h.of_update hproc ?_ (fun hx => by simp [Proc.kkill, hx]) hquiet
    simp only [Proc.kkill]
    split_ifs with hx
    · simp [hx]
    · exact Iff.rfl
  | alloc p x todo ok sz name ha hrun hpc hx hproc hcpu hforks hp => exact h.alloc hx hproc rfl hcpu hforks hp
  | allocFail p x todo ok ha hrun hpc hx hproc hquiet =>
    exact h.of_update hproc (by simp [Proc.freeproc, hx]) (by simp [hx]) hquiet
  | parent p np hforks hproc hquiet => exact h.of_update hproc Iff.rfl id hquiet
  | start p np hforks hproc hdone hquiet => exact h.start hforks hproc hdone hquiet
  | reap x hx hproc hquiet =>
    exact h.of_update hproc (by simp [Proc.freeproc, hx]) (by simp [hx]) hquiet
  | leave p q hrun hproc hq hcpu hforks => exact h.leave hrun hproc hq.not_running hcpu hforks
  | dispatch p q hidle hpc hchosen hproc hq hcpu hforks =>
    obtain ⟨hr, chan, rfl⟩ := hq
    exact h.dispatch hidle hr hproc rfl hcpu hforks

/-- The invariant holds in every state of every run. -/
theorem placed_of_reachWhen {C : Kernel n → Fin n × KAct → Prop}
    (h : (kernelMachine n).ReachWhen C s) : s.Placed :=
  h.invariant (I := Placed) (fun _ h0 => h0 ▸ boot_placed n) fun _ _ _ _ hp _ hs => hp.step hs

/-- The process of a CPU is not UNUSED. -/
theorem Placed.alive (h : s.Placed) (c : Fin n) {p : Slot} (hp : (s.cpu c).proc = some p) :
    (s.mem.proc p).state ≠ .unused := by
  rw [(h.running p).mpr ⟨c, hp⟩]
  simp

/-! ## Dispatches -/

/-- A process begins to run only in STEP 5, from RUNNABLE, as the chosen one. -/
theorem runnable_of_runs {a : KAct} {p : Slot} (h : s.Placed) (hs : s.step c a = some s')
    (hrun : (s'.mem.proc p).state = .running) : (s.mem.proc p).state = .running ∨
      ((s.mem.proc p).state = .runnable ∧ (s.cpu c).pc = .step5 ∧ (s.cpu c).loc.chosen = some p ∧
        (s'.cpu c).proc = some p) := by
  cases step_moved hs with
  | dispatch x q hidle hpc hchosen hproc hq hcpu hforks =>
    by_cases hp : p = x
    · subst hp
      exact Or.inr ⟨hq.1, hpc, hchosen, by rw [hcpu, if_pos rfl]⟩
    · rw [hproc, update_of_ne hp] at hrun
      exact Or.inl hrun
  | alloc _ _ _ _ _ _ _ _ _ _ _ hcpu | slot _ _ _ _ hquiet | own _ _ _ _ _ hquiet
  | kill _ _ _ _ _ _ _ _ _ _ _ hquiet | allocFail _ _ _ _ _ _ _ _ _ hquiet | parent _ _ _ _ hquiet
  | start _ _ _ _ _ hquiet | reap _ _ _ hquiet =>
    left
    obtain ⟨d, hd⟩ := ((h.step hs).running p).mp hrun
    refine (h.running p).mpr ⟨d, ?_⟩
    first
      | rwa [hquiet.cpu] at hd
      | rwa [hcpu] at hd
  | leave x q hrun' hproc hq hcpu hforks =>
    left
    obtain ⟨d, hd⟩ := ((h.step hs).running p).mp hrun
    rw [hcpu] at hd
    split_ifs at hd
    exact (h.running p).mpr ⟨d, hd⟩

/-- STEP 5 takes the slot it chose if it finds it RUNNABLE, and else leaves everything alone. -/
theorem step5_sched {p : Slot} (hpc : (s.cpu c).pc = .step5)
    (hchosen : (s.cpu c).loc.chosen = some p) (hs : s.step c .sched = some s') :
    ((s'.cpu c).proc = some p ↔ (s.mem.proc p).state = .runnable) ∧
      ((s.mem.proc p).state ≠ .runnable → s'.mem = s.mem) := by
  obtain ⟨hidle, -, hs⟩ := step_sched hs
  simp only [schedule, hpc, schedStep, hchosen] at hs
  by_cases hr : (s.mem.proc p).state = .runnable
  · simp only [if_pos hr, Option.map_some, Option.some.injEq] at hs
    refine ⟨⟨fun _ => hr, fun _ => ?_⟩, fun h => absurd hr h⟩
    rw [hchosen] at hs
    dsimp only at hs
    rw [← hs, (resume_eq _ c p).2.1, if_pos rfl]
  · simp only [if_neg hr, Option.map_some, Option.some.injEq] at hs
    subst hs
    simp [setCpu, hidle, hr]

end Kernel

open Kernel

/-- A process is RUNNING just when it is the process of exactly one CPU; it begins to run
only as the chosen process of STEP 5, from RUNNABLE; and STEP 5 takes the slot it chose, whatever
became of it meanwhile, just when it is RUNNABLE then. -/
theorem running_iff_existsUnique_cpu {n : ℕ} {s : Kernel n} (h : (kernelMachine n).Reachable s) :
    (∀ p, (s.mem.proc p).state = .running ↔ ∃! c, (s.cpu c).proc = some p) ∧
    (∀ c a s' p, s.step c a = some s' → (s'.mem.proc p).state = .running →
      (s.mem.proc p).state = .running ∨
        ((s.mem.proc p).state = .runnable ∧ (s.cpu c).pc = .step5 ∧
          (s.cpu c).loc.chosen = some p ∧ (s'.cpu c).proc = some p)) ∧
    ∀ c s' p, (s.cpu c).pc = .step5 → (s.cpu c).loc.chosen = some p →
      s.step c .sched = some s' →
        ((s'.cpu c).proc = some p ↔ (s.mem.proc p).state = .runnable) ∧
        ((s.mem.proc p).state ≠ .runnable → s'.mem = s.mem) := by
  have hplaced := placed_of_reachWhen h
  refine ⟨fun p => ?_, fun c a s' p hs => runnable_of_runs hplaced hs,
    fun c s' p hpc hchosen hs => step5_sched hpc hchosen hs⟩
  rw [hplaced.running]
  refine ⟨fun ⟨c, hc⟩ => ⟨c, hc, fun d hd => hplaced.sole d c p hd hc⟩, fun ⟨c, hc, _⟩ => ⟨c, hc⟩⟩

/-- On two CPUs, the second of which starts init. -/
theorem running_iff_second_cpu : ∃ s : Kernel 2, (kernelMachine 2).Reachable s ∧
    (s.mem.proc initproc).state = .running ∧ (s.cpu 1).proc = some initproc ∧
      ∃! c, (s.cpu c).proc = some initproc := by
  obtain ⟨s, hreach, -, hruns, hproc, -⟩ := boot_runs (n := 2) 1
  have hrun : (s.mem.proc initproc).state = .running := by
    rw [hproc, Mem.dispatched, Function.update_self]
  exact ⟨s, hreach, hrun, hruns.1, ((running_iff_existsUnique_cpu hreach).1 initproc).mp hrun⟩

/-- The ways of a slot : it is taken and started, dispatched, and then yields, sleeps until it is woken up, or exits
and is freed. -/
inductive ProcState.Next : ProcState → ProcState → Prop
  | alloc : Next .unused .used
  | start : Next .used .runnable
  | dispatch : Next .runnable .running
  | yield : Next .running .runnable
  | sleep : Next .running .sleeping
  | wakeup : Next .sleeping .runnable
  | exit : Next .running .zombie
  | reap : Next .zombie .unused

end Xv6
