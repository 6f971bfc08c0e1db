import Mathlib.Tactic.SplitIfs
import Xv6.Thermal

/-!
# One CPU's scheduler

`scheduler()` of kernel/proc.c on one CPU, one critical section of a slot's lock at a time. A
round goes over the process table up to six times (`Pass`); what it does to a slot is
`visit`, and between the passes stand the test of STEP 2 and the dispatch of STEP 5. Other
CPUs and their processes may run between any two of these steps.

`schedStep` is the next step. What it works on is the memory that all CPUs share, `Mem`,
and the locals of its own CPU, `Locals`. The dispatch ends in the `swtch` to the chosen process,
and the scheduler goes on at the top of its loop when that process switches back. Proofs about a step
go by its branches, `SchedStep`.
-/

namespace Xv6

/-- A line of the kernel's log, with the values that are printed. -/
inductive Msg
  | cooling (temp : Int)
  | skipped (pid heat waited temp : Int)
  | thermal (temp : Int) (zone : Zone) (pid heat : Int) (name : List Char) (skipped : Int)
  | summary (tm : Tm)

/-- What the CPUs share. -/
structure Mem where
  proc : Slot → Proc
  cpuTemp : Int
  nextpid : Int
  /-- The process that holds `wait_lock`. -/
  waitLock : Option Slot
  ticks : ℕ
  schedRound : Int
  tm : Tm
  summaryPrinted : Bool
  console : List Msg

/-- The scans of a round. -/
inductive Pass
  | step0
  | step1
  | passA
  | passB
  | passC
  | step4
  deriving DecidableEq, Repr

/-- Where a CPU's scheduler is. The slots a scan has still to visit are in its list. -/
inductive SchedPc
  /-- The top of the loop, where interrupts are on. -/
  | top
  | scan (pass : Pass) (todo : List Slot)
  | step2
  | step5
  /-- In `swtch`, running a process. -/
  | swtch
  deriving DecidableEq, Repr

/-- The locals of `scheduler()`. -/
structure Locals where
  chosen : Option Slot
  skipped : Int
  stillActive : Bool
  lowestHeat : Int
  deriving DecidableEq, Repr

namespace Mem

/-- Store into the process table. -/
def setProc (m : Mem) (p : Slot) (q : Proc) : Mem :=
  { m with proc := Function.update m.proc p q }

/-- `p->parent != 0 && is_thermal_test(p->parent->name)`. -/
def testChild (m : Mem) (p : Slot) : Bool :=
  match (m.proc p).parent with
  | none => false
  | some q => isThermalTest (m.proc q).name

/-- The periodic log is due in this round. -/
def logs (m : Mem) : Bool :=
  m.schedRound % THERMAL_LOG_INTERVAL == 0

def print (m : Mem) (msg : Msg) : Mem :=
  { m with console := m.console ++ [msg] }

/-- The update of `cpu_temp` by a process of that heat, or by none. -/
def heat (m : Mem) (processHeat : Int) : Mem :=
  { m with cpuTemp := updateCpuTemp m.cpuTemp processHeat }

end Mem

/-- STEP 0 : a child of a test is still active. -/
def visit0 (p : Slot) (m : Mem) (l : Locals) : Mem × Locals × Bool :=
  if (m.proc p).state ≠ .unused ∧ (m.proc p).state ≠ .zombie ∧ m.testChild p then
    (m, { l with stillActive := true }, true)
  else (m, l, false)

/-- STEP 1. -/
def visit1 (p : Slot) (m : Mem) (l : Locals) : Mem × Locals × Bool :=
  (m.setProc p (m.proc p).decay, l, false)

/-- Pass A for a RUNNABLE child of a test that the gate lets through. -/
def choose (p : Slot) (m : Mem) (l : Locals) : Mem × Locals :=
  let summaryPrinted := if m.tm.hadChildren then m.summaryPrinted else false
  let m := { m with summaryPrinted := summaryPrinted, tm := { m.tm with hadChildren := true } }
  match l.chosen with
  | none => (m, { l with chosen := some p })
  | some q => (m, if (m.proc p).pid < (m.proc q).pid then { l with chosen := some p } else l)

/-- Pass A. -/
def visitA (p : Slot) (m : Mem) (l : Locals) : Mem × Locals × Bool :=
  let q := m.proc p
  if q.state ≠ .runnable then (m, l, false)
  else if q.dominated m.cpuTemp then
    let m := { m with tm := m.tm.recordSkip q.pid }
    let m := if m.logs then m.print (.skipped q.pid q.heat q.waitingTick m.cpuTemp) else m
    (m, { l with skipped := l.skipped + 1 }, false)
  else if m.testChild p then
    let (m, l) := choose p m l
    (m, l, false)
  else (m, l, false)

/-- Pass B. -/
def visitB (p : Slot) (m : Mem) (l : Locals) : Mem × Locals × Bool :=
  let q := m.proc p
  if q.state ≠ .runnable then (m, l, false)
  else if q.dominated m.cpuTemp then
    ({ m with tm := m.tm.recordSkip q.pid }, { l with skipped := l.skipped + 1 }, false)
  else if q.heat < l.lowestHeat then (m, { l with chosen := some p, lowestHeat := q.heat }, false)
  else (m, l, false)

/-- Pass C. -/
def visitC (p : Slot) (m : Mem) (l : Locals) : Mem × Locals × Bool :=
  if (m.proc p).state = .runnable then (m, { l with chosen := some p }, true) else (m, l, false)

/-- STEP 4. -/
def visit4 (p : Slot) (m : Mem) (l : Locals) : Mem × Locals × Bool :=
  let q := m.proc p
  if q.state = .runnable ∧ l.chosen ≠ some p then
    (m.setProc p { q with waitingTick := q.waitingTick + 1 }, l, false)
  else (m, l, false)

/-- What a scan does to slot `p`, and whether it ends there. -/
def visit : Pass → Slot → Mem → Locals → Mem × Locals × Bool
  | .step0 => visit0
  | .step1 => visit1
  | .passA => visitA
  | .passB => visitB
  | .passC => visitC
  | .step4 => visit4

/-- What follows a scan. -/
def afterScan (pass : Pass) (m : Mem) (l : Locals) : Mem × Locals × SchedPc :=
  match pass with
  | .step0 =>
    if l.stillActive then (m, l, .scan .step1 table)
    else
      let m := { m with summaryPrinted := true }.print (.summary m.tm)
      ({ m with tm := Tm.reset }, l, .scan .step1 table)
  | .step1 => (m, l, .step2)
  | .passA =>
    match l.chosen with
    | none => (m, { l with lowestHeat := MAX_HEAT + 1 }, .scan .passB table)
    | some _ => (m, l, .scan .step4 table)
  | .passB =>
    match l.chosen with
    | none => (m, l, .scan .passC table)
    | some _ => (m, l, .scan .step4 table)
  | .passC => (m, l, .scan .step4 table)
  | .step4 => (m, l, .step5)

/-- The part of STEP 5 that follows the test for RUNNABLE, up to the `swtch`. -/
def dispatch (m : Mem) (l : Locals) (p : Slot) : Mem :=
  let q := m.proc p
  let m := if m.logs then m.print (.thermal m.cpuTemp (zone m.cpuTemp) q.pid q.heat q.name l.skipped)
    else m
  let m := { m with tm := m.tm.recordSchedule m.cpuTemp q.pid q.heat }
  (m.setProc p { q with state := .running, waitingTick := 0, heat := q.heated }).heat q.heated

/-- STEP 2 above the limit. -/
def throttle (m : Mem) : Mem :=
  let m := { m with tm := { m.tm with coolingCycles := m.tm.coolingCycles + 1 } }
  (if m.logs then m.print (.cooling m.cpuTemp) else m).heat 0

/-- The next step of the scheduler : the memory, its locals, and where it is then. -/
def schedStep (m : Mem) (l : Locals) : SchedPc → Option (Mem × Locals × SchedPc)
  | .top =>
    let m := { m with schedRound := m.schedRound + 1 }
    let l := { l with chosen := none, skipped := 0, stillActive := false }
    some (m, l, .scan (if m.tm.hadChildren && !m.summaryPrinted then .step0 else .step1) table)
  | .scan pass [] => some (afterScan pass m l)
  | .scan pass (p :: todo) =>
    match visit pass p m l with
    | (m, l, true) => some (afterScan pass m l)
    | (m, l, false) => some (m, l, .scan pass todo)
  | .step2 =>
    if m.cpuTemp ≥ THROTTLE_TEMP then some (throttle m, l, .top) else some (m, l, .scan .passA table)
  | .step5 =>
    match l.chosen with
    | none => some (m.heat 0, l, .top)
    | some p =>
      if (m.proc p).state = .runnable then some (dispatch m l p, l, .swtch) else some (m, l, .top)
  | .swtch => none

/-! ## What the steps of a round write -/

@[simp] theorem Mem.heat_proc (m : Mem) (h : Int) : (m.heat h).proc = m.proc := rfl

@[simp] theorem Mem.heat_cpuTemp (m : Mem) (h : Int) :
    (m.heat h).cpuTemp = updateCpuTemp m.cpuTemp h := rfl

@[simp] theorem Mem.setProc_cpuTemp (m : Mem) (p : Slot) (q : Proc) :
    (m.setProc p q).cpuTemp = m.cpuTemp := rfl

@[simp] theorem Mem.setProc_self (m : Mem) (p : Slot) (q : Proc) : (m.setProc p q).proc p = q :=
  Function.update_self ..

theorem Mem.setProc_of_ne {x p : Slot} (h : x ≠ p) (m : Mem) (q : Proc) :
    (m.setProc p q).proc x = m.proc x :=
  Function.update_of_ne h ..

@[simp] theorem visit0_mem (p : Slot) (m : Mem) (l : Locals) : (visit0 p m l).1 = m := by
  unfold visit0
  split_ifs <;> rfl

theorem visitA_table (p : Slot) (m : Mem) (l : Locals) :
    (visitA p m l).1.proc = m.proc ∧ (visitA p m l).1.cpuTemp = m.cpuTemp := by
  unfold visitA choose
  dsimp only
  split_ifs
  · exact ⟨rfl, rfl⟩
  · exact ⟨rfl, rfl⟩
  · exact ⟨rfl, rfl⟩
  all_goals first | exact ⟨rfl, rfl⟩ | (split <;> exact ⟨rfl, rfl⟩)

theorem visitB_table (p : Slot) (m : Mem) (l : Locals) :
    (visitB p m l).1.proc = m.proc ∧ (visitB p m l).1.cpuTemp = m.cpuTemp := by
  unfold visitB
  dsimp only
  split_ifs <;> exact ⟨rfl, rfl⟩

@[simp] theorem visitC_mem (p : Slot) (m : Mem) (l : Locals) : (visitC p m l).1 = m := by
  unfold visitC
  split_ifs <;> rfl

/-- STEP 4 goes over the whole table. -/
theorem visit4_eq (p : Slot) (m : Mem) (l : Locals) :
    visit4 p m l = ((visit4 p m l).1, l, false) := by
  unfold visit4
  dsimp only
  split_ifs <;> rfl

/-- No scan changes the temperature. -/
@[simp] theorem visit_cpuTemp (pass : Pass) (p : Slot) (m : Mem) (l : Locals) :
    (visit pass p m l).1.cpuTemp = m.cpuTemp := by
  cases pass
  · simp [visit]
  · rfl
  · exact (visitA_table p m l).2
  · exact (visitB_table p m l).2
  · simp [visit]
  · simp only [visit, visit4]
    split_ifs <;> rfl

@[simp] theorem afterScan_proc (pass : Pass) (m : Mem) (l : Locals) :
    (afterScan pass m l).1.proc = m.proc := by
  unfold afterScan
  split <;> (try split) <;> rfl

@[simp] theorem afterScan_cpuTemp (pass : Pass) (m : Mem) (l : Locals) :
    (afterScan pass m l).1.cpuTemp = m.cpuTemp := by
  unfold afterScan
  split <;> (try split) <;> rfl

theorem afterScan_pc (pass : Pass) (m : Mem) (l : Locals) :
    (afterScan pass m l).2.2 ≠ .swtch := by
  unfold afterScan
  split <;> (try split) <;> simp

@[simp] theorem throttle_proc (m : Mem) : (throttle m).proc = m.proc := by
  unfold throttle
  dsimp only
  split_ifs <;> rfl

@[simp] theorem throttle_cpuTemp (m : Mem) :
    (throttle m).cpuTemp = updateCpuTemp m.cpuTemp 0 := by
  unfold throttle
  dsimp only
  split_ifs <;> rfl

@[simp] theorem dispatch_proc (m : Mem) (l : Locals) (p : Slot) : (dispatch m l p).proc =
    Function.update m.proc p { m.proc p with
      state := .running, waitingTick := 0, heat := (m.proc p).heated } := by
  unfold dispatch
  dsimp only
  split_ifs <;> rfl

@[simp] theorem dispatch_cpuTemp (m : Mem) (l : Locals) (p : Slot) :
    (dispatch m l p).cpuTemp = updateCpuTemp m.cpuTemp (m.proc p).heated := by
  unfold dispatch
  dsimp only
  split_ifs <;> rfl

/-! ## The branches of a step -/

/-- `schedStep` as a relation, with a constructor for each of its branches. -/
inductive SchedStep (m : Mem) (l : Locals) : SchedPc → Mem → Locals → SchedPc → Prop
  | top {pass : Pass} (hpass : pass = .step0 ∨ pass = .step1) :
    SchedStep m l .top { m with schedRound := m.schedRound + 1 }
      { l with chosen := none, skipped := 0, stillActive := false } (.scan pass table)
  | next {pass : Pass} {p : Slot} {todo : List Slot} {m' : Mem} {l' : Locals}
    (hv : visit pass p m l = (m', l', false)) :
    SchedStep m l (.scan pass (p :: todo)) m' l' (.scan pass todo)
  | found {pass : Pass} {p : Slot} {todo : List Slot} {m' : Mem} {l' : Locals}
    (hv : visit pass p m l = (m', l', true)) :
    SchedStep m l (.scan pass (p :: todo)) (afterScan pass m' l').1 (afterScan pass m' l').2.1
      (afterScan pass m' l').2.2
  | done {pass : Pass} :
    SchedStep m l (.scan pass []) (afterScan pass m l).1 (afterScan pass m l).2.1
      (afterScan pass m l).2.2
  | throttle (htemp : THROTTLE_TEMP ≤ m.cpuTemp) : SchedStep m l .step2 (throttle m) l .top
  | select (htemp : m.cpuTemp < THROTTLE_TEMP) : SchedStep m l .step2 m l (.scan .passA table)
  | idle (hc : l.chosen = none) : SchedStep m l .step5 (m.heat 0) l .top
  | dispatch {p : Slot} (hc : l.chosen = some p) (hr : (m.proc p).state = .runnable) :
    SchedStep m l .step5 (dispatch m l p) l .swtch
  | gone {p : Slot} (hc : l.chosen = some p) (hr : (m.proc p).state ≠ .runnable) :
    SchedStep m l .step5 m l .top

theorem schedStep_cases {m m' : Mem} {l l' : Locals} {pc pc' : SchedPc}
    (h : schedStep m l pc = some (m', l', pc')) : SchedStep m l pc m' l' pc' := by
  cases pc with
  | top =>
    simp only [schedStep, Option.some.injEq, Prod.mk.injEq] at h
    obtain ⟨rfl, rfl, rfl⟩ := h
    split_ifs
    · exact .top (Or.inl rfl)
    · exact .top (Or.inr rfl)
  | scan pass todo =>
    cases todo with
    | nil =>
      have hdone : SchedStep m l (.scan pass []) _ _ _ := .done
      rwa [Option.some.inj h] at hdone
    | cons p todo =>
      simp only [schedStep] at h
      rcases hv : visit pass p m l with ⟨m₁, l₁, _ | _⟩
      · simp only [hv, Option.some.injEq, Prod.mk.injEq] at h
        obtain ⟨rfl, rfl, rfl⟩ := h
        exact .next hv
      · simp only [hv, Option.some.injEq] at h
        have hfound : SchedStep m l (.scan pass (p :: todo)) _ _ _ := .found hv
        rwa [h] at hfound
  | step2 =>
    simp only [schedStep] at h
    split_ifs at h with htemp
    · simp only [Option.some.injEq, Prod.mk.injEq] at h
      obtain ⟨rfl, rfl, rfl⟩ := h
      exact .throttle htemp
    · simp only [Option.some.injEq, Prod.mk.injEq] at h
      obtain ⟨rfl, rfl, rfl⟩ := h
      exact .select (Int.not_le.mp htemp)
  | step5 =>
    simp only [schedStep] at h
    cases hc : l.chosen with
    | none =>
      simp only [hc, Option.some.injEq, Prod.mk.injEq] at h
      obtain ⟨rfl, rfl, rfl⟩ := h
      exact .idle hc
    | some p =>
      simp only [hc] at h
      split_ifs at h with hr
      · simp only [Option.some.injEq, Prod.mk.injEq] at h
        obtain ⟨rfl, rfl, rfl⟩ := h
        exact .dispatch hc hr
      · simp only [Option.some.injEq, Prod.mk.injEq] at h
        obtain ⟨rfl, rfl, rfl⟩ := h
        exact .gone hc hr
  | swtch => cases h

/-- A property of the memory and the locals that a scan's visits keep holds at the next slot or where
the scan is left. -/
theorem SchedStep.scan {pass : Pass} {todo : List Slot} {m m' : Mem} {l l' : Locals} {pc' : SchedPc}
    {I : Mem → Locals → Prop} {C : Mem → Locals → SchedPc → Prop}
    (hvisit : ∀ p, I (visit pass p m l).1 (visit pass p m l).2.1)
    (hscan : ∀ m l todo, I m l → C m l (.scan pass todo))
    (hafter : ∀ m l, I m l → C (afterScan pass m l).1 (afterScan pass m l).2.1
      (afterScan pass m l).2.2)
    (h : I m l) (hs : SchedStep m l (.scan pass todo) m' l' pc') : C m' l' pc' := by
  cases hs with
  | @next _ p _ _ _ hv =>
    have hI := hvisit p
    rw [hv] at hI
    exact hscan _ _ _ hI
  | @found _ p _ _ _ hv =>
    have hI := hvisit p
    rw [hv] at hI
    exact hafter _ _ hI
  | done => exact hafter _ _ h

end Xv6
