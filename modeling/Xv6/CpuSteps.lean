import Xv6.KernelSteps

/-!
# What a step does to the CPUs and the temperature

A step of CPU `c` changes no other CPU, and `cpu_temp` changes in four places only : in
STEP 2 and STEP 5 of the scheduler, at a dispatch, and in clockintr. `Turned` lists what a step does,
by the part of the kernel the CPU is in : the thread of the process it runs, which goes on or
leaves the CPU; the scheduler; or an interrupt handler. `step_turned` is proved by going through
the code once more.
-/

namespace Xv6

/-- Between the test of STEP 2 and the dispatch of STEP 5. -/
def SchedPc.chooses : SchedPc → Bool
  | .scan .passA _ | .scan .passB _ | .scan .passC _ | .scan .step4 _ | .step5 => true
  | _ => false

/-- In kexit. -/
def ThreadPc.exits : ThreadPc → Bool
  | .exiting _ | .exitReparent _ _ | .exitZombie _ => true
  | .wakeup _ _ next => next.exits
  | _ => false

/-- clockintr has set the temperature, and the process is to yield or to exit. -/
def Intr.late : Intr → Bool
  | .killed timer => timer
  | .yield => true
  | _ => false

/-- No timer interrupt can be counted any more before the process leaves the CPU. -/
def Thread.spent (t : Thread) : Option Intr → Bool
  | none => !t.intena
  | some i => i.late

/-- A thread goes on : the interrupts stay as they are, unless it enters kexit. -/
def Thread.Continues (t t' : Thread) : Prop :=
  (t'.intena = t.intena ∧ (t.pc.exits → t'.pc.exits)) ∨
    (t'.pc.exits ∧ (t'.intena = false ∨ t.pc = .user))

theorem Thread.Continues.refl (t : Thread) : t.Continues t :=
  Or.inl ⟨rfl, id⟩

/-! ## The scheduler -/

/-- Where a step of the scheduler leads, and what it does to the temperature. -/
theorem schedStep_temp {m m' : Mem} {l l' : Locals} {pc pc' : SchedPc}
    (h : schedStep m l pc = some (m', l', pc')) (hpc : pc' ≠ .swtch) :
    (m'.cpuTemp = m.cpuTemp ∧ pc'.chooses = pc.chooses ∧ pc ≠ .step2) ∨
    (pc = .step2 ∧ THROTTLE_TEMP ≤ m.cpuTemp ∧ pc' = .top ∧
      m'.cpuTemp = updateCpuTemp m.cpuTemp 0) ∨
    (pc = .step2 ∧ m.cpuTemp < THROTTLE_TEMP ∧ pc'.chooses = true ∧ m'.cpuTemp = m.cpuTemp) ∨
    (pc = .step5 ∧ pc' = .top ∧
      (m'.cpuTemp = m.cpuTemp ∨ m'.cpuTemp = updateCpuTemp m.cpuTemp 0)) := by
  have hafter : ∀ pass todo m₁ l₁,
      (afterScan pass m₁ l₁).2.2.chooses = (SchedPc.scan pass todo).chooses := by
    intro pass todo m₁ l₁
    unfold afterScan
    split <;> (try split) <;> rfl
  cases schedStep_cases h with
  | top hpass =>
    refine Or.inl ⟨rfl, ?_, by simp⟩
    obtain rfl | rfl := hpass <;> rfl
  | @next pass p todo _ _ hv =>
    have htemp := visit_cpuTemp pass p m l
    rw [hv] at htemp
    refine Or.inl ⟨htemp, ?_, by simp⟩
    cases pass <;> rfl
  | @found pass p todo m₁ l₁ hv =>
    have htemp := visit_cpuTemp pass p m l
    rw [hv] at htemp
    exact Or.inl ⟨(afterScan_cpuTemp ..).trans htemp, hafter .., by simp⟩
  | done => exact Or.inl ⟨afterScan_cpuTemp .., hafter .., by simp⟩
  | throttle htemp => exact Or.inr (Or.inl ⟨rfl, htemp, rfl, throttle_cpuTemp m⟩)
  | select htemp => exact Or.inr (Or.inr (Or.inl ⟨rfl, htemp, rfl, rfl⟩))
  | idle hc => exact Or.inr (Or.inr (Or.inr ⟨rfl, rfl, Or.inr rfl⟩))
  | dispatch hc hr => exact absurd rfl hpc
  | gone hc hr => exact Or.inr (Or.inr (Or.inr ⟨rfl, rfl, Or.inl rfl⟩))

namespace Kernel

variable {n : ℕ}

/-- What the step `a` of CPU `c` does to the CPUs and the temperature. -/
inductive Turned (s : Kernel n) (c : Fin n) (a : KAct) (s' : Kernel n) : Prop
  /-- The process goes on in the thread. -/
  | thread (p : Slot) (hrun : (s.cpu c).proc = some p) (hintr : (s.cpu c).intr = none)
    (hcpu : s'.cpu = s.cpu) (htemp : s'.mem.cpuTemp = s.mem.cpuTemp)
    (hself : (s.thread p).Continues (s'.thread p))
    (hother : ∀ q, q ≠ p → s'.thread q = s.thread q ∨ s'.thread q = .forkret)
  /-- The process leaves the CPU. -/
  | leave (p : Slot) (hrun : (s.cpu c).proc = some p)
    (hcpu : s'.cpu = Function.update s.cpu c
      { s.cpu c with proc := none, pc := .top, intr := none })
    (htemp : s'.mem.cpuTemp = s.mem.cpuTemp)
    (hself : (s.thread p).Continues (s'.thread p))
    (hother : ∀ q, q ≠ p → s'.thread q = s.thread q)
  /-- The scheduler goes on. -/
  | sched (m : Mem) (l : Locals) (pc : SchedPc) (ha : a = .sched) (hidle : (s.cpu c).proc = none)
    (hintr : (s.cpu c).intr = none)
    (hstep : schedStep s.mem (s.cpu c).loc (s.cpu c).pc = some (m, l, pc)) (hpc : pc ≠ .swtch)
    (hcpu : s'.cpu = Function.update s.cpu c { s.cpu c with loc := l, pc := pc })
    (hmem : s'.mem = m) (hthread : s'.thread = s.thread)
  /-- The scheduler dispatches a process. -/
  | dispatch (p : Slot) (ha : a = .sched) (hidle : (s.cpu c).proc = none)
    (hintr : (s.cpu c).intr = none)
    (hpc : (s.cpu c).pc = .step5) (hchosen : (s.cpu c).loc.chosen = some p)
    (hr : (s.mem.proc p).state = .runnable)
    (hcpu : s'.cpu = Function.update s.cpu c { s.cpu c with proc := some p, pc := .swtch })
    (htemp : s'.mem.cpuTemp = updateCpuTemp s.mem.cpuTemp (s.mem.proc p).heated)
    (hthread : ∀ q, (s.thread q).Continues (s'.thread q))
  /-- An interrupt is taken. -/
  | take (user : Bool) (i : Intr) (ha : a ≠ .sched) (hintr : (s.cpu c).intr = none)
    (hok : s.interruptible c user = true) (hi : i.late = false)
    (hcpu : s'.cpu = Function.update s.cpu c { s.cpu c with intr := some i })
    (htemp : s'.mem.cpuTemp = s.mem.cpuTemp) (hthread : s'.thread = s.thread)
  /-- A handler goes on. -/
  | handle (i : Intr) (i' : Option Intr) (ha : a = .intr) (hintr : (s.cpu c).intr = some i)
    (hcpu : s'.cpu = Function.update s.cpu c { s.cpu c with intr := i' })
    (htemp : s'.mem.cpuTemp = s.mem.cpuTemp)
    (hlate : ∀ p, (s.cpu c).proc = some p → i.late = true → (s'.thread p).spent i' = true)
    (hthread : ∀ q, (s.thread q).Continues (s'.thread q))
  /-- clockintr sets the temperature. -/
  | heat (user : Bool) (ha : a = .intr) (hintr : (s.cpu c).intr = some (.temp user))
    (hcpu : s'.cpu = Function.update s.cpu c { s.cpu c with
      intr := (s.cpu c).proc.map fun _ => if user then .killed true else .yield })
    (htemp : s'.mem.cpuTemp = updateCpuTemp s.mem.cpuTemp (if s.active c then 1 else 0))
    (hthread : s'.thread = s.thread)

variable {s s' : Kernel n} {c : Fin n} {a : KAct} {p : Slot}

/-! ## The threads -/

/-- Only the thread of `p` changes. -/
theorem Turned.goto {t : Thread} (hrun : (s.cpu c).proc = some p) (hintr : (s.cpu c).intr = none)
    (hcpu : s'.cpu = s.cpu) (htemp : s'.mem.cpuTemp = s.mem.cpuTemp)
    (hthread : s'.thread = Function.update s.thread p t) (h : (s.thread p).Continues t) :
    Turned s c a s' := by
  refine .thread p hrun hintr hcpu htemp ?_ fun q hq => Or.inl ?_
  · rwa [hthread, Function.update_self]
  · rw [hthread, Function.update_of_ne hq]

/-- The thread of `p` was not in kexit, and its interrupts stay as they are. -/
theorem continues_of_pc {t : Thread} {pc : ThreadPc} (hpc : (s.thread p).pc = pc)
    (hexits : pc.exits = false) (h : t.intena = (s.thread p).intena) : (s.thread p).Continues t :=
  Or.inl ⟨h, fun he => by rw [hpc, hexits] at he; cases he⟩

theorem Turned.sleep {chan : Chan} (hrun : (s.cpu c).proc = some p) :
    Turned s c a (s.sleep c p chan) := by
  refine .leave p hrun rfl rfl ?_ fun q hq => ?_
  · simp [Kernel.sleep, Kernel.sched, setCpu, setThread, setProc, Thread.Continues]
  · simp [Kernel.sleep, Kernel.sched, setCpu, setThread, setProc, hq]

theorem call_turned {x : Call} (hrun : (s.cpu c).proc = some p) (hintr : (s.cpu c).intr = none)
    (hpc : (s.thread p).pc = .user) (h : s.call c p x = some s') : Turned s c a s' := by
  cases x with
  | fork | kill | wait | wakeup =>
    cases h
    exact .goto hrun hintr rfl rfl rfl (continues_of_pc hpc rfl rfl)
  | exit status =>
    simp only [call, Option.ite_none_left_eq_some, Option.some.injEq] at h
    obtain ⟨-, rfl⟩ := h
    exact .goto hrun hintr rfl rfl rfl (continues_of_pc hpc rfl rfl)
  | die intena =>
    obtain ⟨-, rfl⟩ := of_guard h
    exact .goto hrun hintr rfl rfl rfl (Or.inr ⟨rfl, Or.inr hpc⟩)
  | sleep | pause =>
    cases h
    exact .sleep hrun
  | setkilled | exec | growproc =>
    cases h
    exact .thread p hrun hintr rfl rfl (.refl _) fun _ _ => Or.inl rfl

theorem callExiting_turned {status : Int} {x : Call} (hrun : (s.cpu c).proc = some p)
    (hintr : (s.cpu c).intr = none) (h : s.callExiting c p status x = some s') : Turned s c a s' := by
  cases x with
  | sleep =>
    cases h
    exact .sleep hrun
  | wakeup =>
    cases h
    exact .goto hrun hintr rfl rfl rfl (Or.inl ⟨rfl, fun _ => rfl⟩)
  | _ => cases h

theorem forkAlloc_turned {x : Slot} {todo : List Slot} {ok : Bool} (hrun : (s.cpu c).proc = some p)
    (hintr : (s.cpu c).intr = none) (hpc : (s.thread p).pc = .forkAlloc todo) (hpx : p ≠ x) :
    Turned s c a (s.forkAlloc p x ok) := by
  cases ok with
  | false => exact .goto hrun hintr rfl rfl rfl (continues_of_pc hpc rfl rfl)
  | true =>
    refine .thread p hrun hintr rfl rfl (continues_of_pc hpc rfl ?_) fun q hq => ?_
    · simp [forkAlloc, Kernel.goto, setThread, setProc, hpx]
    · by_cases hqx : q = x
      · right
        simp [forkAlloc, Kernel.goto, setThread, hqx, hpx.symm]
      · left
        simp [forkAlloc, Kernel.goto, setThread, setProc, hq, hqx]

theorem run_turned {ok : Bool} (hrun : (s.cpu c).proc = some p) (hintr : (s.cpu c).intr = none)
    (halive : (s.mem.proc p).state ≠ .unused) (h : s.run c p ok = some s') : Turned s c a s' := by
  unfold run at h
  split at h
  case h_1 => cases h
  case h_2 hpc | h_6 hpc =>
    cases h
    exact .goto hrun hintr rfl rfl rfl (continues_of_pc hpc rfl rfl)
  case h_3 x todo hpc =>
    cases h
    split_ifs with hx
    · refine forkAlloc_turned hrun hintr hpc ?_
      rintro rfl
      exact halive hx
    · exact .goto hrun hintr rfl rfl rfl (continues_of_pc hpc rfl rfl)
  case h_4 hpc | h_14 hpc =>
    obtain ⟨-, rfl⟩ := of_guard h
    exact .goto hrun hintr rfl rfl rfl (continues_of_pc hpc rfl rfl)
  case h_5 hpc =>
    cases h
    exact .goto hrun hintr rfl rfl rfl (continues_of_pc hpc rfl rfl)
  case h_7 hpc | h_15 hpc | h_17 hpc =>
    cases h
    split_ifs
    · exact .goto hrun hintr rfl rfl rfl (continues_of_pc hpc rfl rfl)
    · exact .goto hrun hintr rfl rfl rfl (continues_of_pc hpc rfl rfl)
  case h_8 chan next hpc =>
    cases h
    exact .goto hrun hintr rfl rfl rfl (Or.inl ⟨rfl, fun he => by rw [hpc] at he; exact he⟩)
  case h_9 chan x todo next hpc =>
    cases h
    have hgo : (s.thread p).Continues { s.thread p with pc := .wakeup chan todo next } :=
      Or.inl ⟨rfl, fun he => by rw [hpc] at he; exact he⟩
    split_ifs
    · exact .goto hrun hintr rfl rfl rfl hgo
    · exact .goto hrun hintr rfl rfl rfl hgo
  case h_10 =>
    obtain ⟨-, rfl⟩ := of_guard h
    exact .goto hrun hintr rfl rfl rfl (Or.inl ⟨rfl, fun _ => rfl⟩)
  case h_11 =>
    cases h
    exact .goto hrun hintr rfl rfl rfl (Or.inl ⟨rfl, fun _ => rfl⟩)
  case h_12 =>
    cases h
    split_ifs
    · exact .goto hrun hintr rfl rfl rfl (Or.inl ⟨rfl, fun _ => rfl⟩)
    · exact .goto hrun hintr rfl rfl rfl (Or.inl ⟨rfl, fun _ => rfl⟩)
  case h_13 =>
    cases h
    exact .leave p hrun rfl rfl (.refl _) fun _ _ => rfl
  case h_16 addr havekids x todo hpc =>
    cases h
    split_ifs
    · unfold reap
      dsimp only
      by_cases hfail : (addr && !ok) = true
      · rw [if_pos hfail]
        exact .goto hrun hintr rfl rfl rfl (continues_of_pc hpc rfl rfl)
      · rw [if_neg hfail]
        exact .goto hrun hintr rfl rfl rfl (continues_of_pc hpc rfl rfl)
    · exact .goto hrun hintr rfl rfl rfl (continues_of_pc hpc rfl rfl)
    · exact .goto hrun hintr rfl rfl rfl (continues_of_pc hpc rfl rfl)
  case h_18 addr hpc =>
    cases h
    refine .leave p hrun rfl rfl (continues_of_pc hpc rfl ?_) fun q hq => ?_
    · simp [Kernel.sleep, Kernel.sched, setCpu, setThread, setProc, Kernel.goto, setWaitLock]
    · simp [Kernel.sleep, Kernel.sched, setCpu, setThread, setProc, Kernel.goto, setWaitLock, hq]

/-! ## The handlers and the scheduler -/

theorem handle_turned {i : Intr} (hintr : (s.cpu c).intr = some i) (h : s.handle c i = some s') :
    Turned s c .intr s' := by
  cases i with
  | wakeup chan todo timer user =>
    have hlate : ∀ i' p, (s.cpu c).proc = some p → (Intr.wakeup chan todo timer user).late = true →
        (s'.thread p).spent i' = true := fun _ _ _ h => by cases h
    cases todo with
    | nil =>
      cases h
      exact .handle _ _ rfl hintr rfl rfl (hlate _) fun _ => .refl _
    | cons x todo =>
      cases h
      split_ifs at hlate ⊢
      · exact .handle _ _ rfl hintr rfl rfl (hlate _) fun _ => .refl _
      · exact .handle _ _ rfl hintr rfl rfl (hlate _) fun _ => .refl _
  | temp user =>
    cases h
    exact .heat user rfl hintr rfl rfl rfl
  | killed timer =>
    obtain ⟨p, hrun, h⟩ := Option.bind_eq_some_iff.mp h
    split_ifs at h
    · cases h
      refine .handle _ none rfl hintr rfl rfl (fun q hq _ => ?_) fun q => ?_
      · obtain rfl := Option.some.inj (hq.symm.trans hrun)
        simp [setIntr, setCpu, setThread, Thread.spent]
      · by_cases hq : q = p
        · subst hq
          simp [setIntr, setCpu, setThread, Thread.Continues, ThreadPc.exits]
        · simp [setIntr, setCpu, setThread, hq, Thread.Continues.refl]
    all_goals
      cases h
      refine .handle _ _ rfl hintr rfl rfl (fun q hq hl => ?_) fun _ => .refl _
      simp_all [Intr.late, Thread.spent]
  | yield =>
    obtain ⟨p, hrun, rfl⟩ := Option.map_eq_some_iff.mp h
    exact .leave p hrun rfl rfl (.refl _) fun _ _ => rfl

theorem schedule_turned (hidle : (s.cpu c).proc = none) (hintr : (s.cpu c).intr = none)
    (h : s.schedule c = some s') : Turned s c .sched s' := by
  obtain ⟨m, l, pc, hstep, hpc, -, rfl⟩ | ⟨p, hpc, hchosen, hr, rfl⟩ := schedule_cases h
  · exact .sched m l pc rfl hidle hintr hstep hpc rfl rfl rfl
  · refine .dispatch p rfl hidle hintr hpc hchosen hr ?_ ?_ fun q => ?_
    · unfold resume
      dsimp only
      split_ifs <;> simp [setThread, setProc, setCpu]
    · unfold resume
      dsimp only
      split_ifs <;> simp [setThread, setProc, setCpu]
    · unfold resume
      dsimp only
      split_ifs
      · by_cases hq : q = p
        · simp [setThread, setProc, setCpu, hq, Thread.Continues]
        · simp [setThread, setProc, setCpu, hq, Thread.Continues.refl]
      · exact .refl _

theorem tick_turned {user : Bool} (hintr : (s.cpu c).intr = none)
    (hok : s.interruptible c user = true) : Turned s c (.tick user) (s.tick c user) := by
  unfold tick
  split_ifs
  · exact .take user _ (by simp) hintr hok rfl rfl rfl rfl
  · exact .take user _ (by simp) hintr hok rfl rfl rfl rfl

/-- What a step does to the CPUs and the temperature. -/
theorem step_turned (halive : ∀ {p}, (s.cpu c).proc = some p → (s.mem.proc p).state ≠ .unused)
    (h : s.step c a = some s') : Turned s c a s' := by
  unfold step at h
  split at h
  case h_1 i hi => exact handle_turned hi h
  case h_2 user hi =>
    obtain ⟨hok, rfl⟩ := of_guard h
    exact tick_turned hi hok
  case h_3 addr user hi =>
    obtain ⟨hok, rfl⟩ := of_guard h
    exact .take user _ (by simp) hi hok rfl rfl rfl rfl
  case h_4 hi hidle => exact schedule_turned hidle hi h
  case h_5 ok p hi hrun => exact run_turned hrun hi (halive hrun) h
  case h_6 x p hi hrun =>
    split at h
    · rename_i hpc
      exact call_turned hrun hi hpc h
    · exact callExiting_turned hrun hi h
    · cases h
  case h_7 => cases h

end Kernel

end Xv6
