import Xv6.CpuSteps
import Xv6.Envelope

/-!
# What the chosen process has over the others

On one CPU nothing runs between STEP 2 and STEP 5, so the process that a round has chosen is
the one `Mem.pick` names, in every state the round goes through. `Selecting` says how far a
round has got : what Pass A, Pass B and Pass C have chosen among the slots they have visited.
What is left of it at STEP 5 is about the processes that were passed over : a process that has
waited `STARVE_TICKS` rounds was not kept back by the thermal gate, so the chosen process is
before it in the order of Pass A or of Pass B (`Mem.Beats`).
-/

namespace Xv6

/-- `p` is let through by the gate and comes before `v` : a child of a test, the one with the
smaller pid if `v` is one too, or not hotter than `v`, which is none. -/
def Mem.Beats (m : Mem) (p v : Slot) : Prop :=
  (m.proc p).dominated m.cpuTemp = false ∧
    ((m.testChild p = true ∧ (m.testChild v = true → (m.proc p).pid ≤ (m.proc v).pid)) ∨
      (m.testChild v = false ∧ (m.proc p).heat ≤ (m.proc v).heat))

/-- The chosen process comes before those that had waited `STARVE_TICKS` rounds. STEP 4 has still
to count the round for the slots in the list. -/
def Mem.Passed (m : Mem) (chosen : Option Slot) (todo : List Slot) : Prop :=
  ∀ p v, chosen = some p → v ≠ p → (m.proc v).state = .runnable →
    STARVE_TICKS + (if v ∈ todo then 0 else 1) ≤ (m.proc v).waitingTick → m.Beats p v

/-- How far a round has got. -/
def Selecting (m : Mem) (l : Locals) : SchedPc → Prop
  | .scan .step0 _ | .scan .step1 _ | .step2 => l.chosen = none
  | .scan .passA todo => ∃ done, done ++ todo = table ∧ l.chosen =
      leastBy (fun p => m.eligible p && m.testChild p) (fun p => (m.proc p).pid) done
  | .scan .passB todo => (∀ p, m.eligible p = true → m.testChild p = false) ∧ l.Lowest m ∧
      ∃ done, done ++ todo = table ∧
        l.chosen = leastBy m.eligible (fun p => (m.proc p).heat) done
  | .scan .passC _ => ∀ p, m.eligible p = false
  | .scan .step4 todo => (∃ done, done ++ todo = table) ∧ m.Passed l.chosen todo
  | .step5 => m.Passed l.chosen []
  | .top | .swtch => True

variable {m m' : Mem} {l l' : Locals}

/-! ## The passes -/

/-- A process that has waited long enough is let through. -/
theorem Mem.eligible_of_starved {v : Slot} (hr : (m.proc v).state = .runnable)
    (hw : STARVE_TICKS ≤ (m.proc v).waitingTick) : m.eligible v = true := by
  have : ¬ (m.proc v).waitingTick < STARVE_TICKS := Int.not_lt.mpr hw
  simp [Mem.eligible, hr, Proc.dominated, this]

theorem Mem.not_dominated_of_eligible {v : Slot} (h : m.eligible v = true) :
    (m.proc v).dominated m.cpuTemp = false := by
  simpa [Mem.eligible] using (Bool.and_eq_true_iff.mp h).2

theorem selecting_afterA (hc : l.chosen =
      leastBy (fun p => m.eligible p && m.testChild p) (fun p => (m.proc p).pid) table) :
    Selecting (afterScan .passA m l).1 (afterScan .passA m l).2.1 (afterScan .passA m l).2.2 := by
  unfold afterScan
  cases hcho : l.chosen with
  | none =>
    rw [hcho, eq_comm, leastBy_eq_none] at hc
    refine ⟨fun p hp => ?_, rfl, [], rfl, rfl⟩
    simpa [show m.eligible p = true from hp] using hc p (mem_table p)
  | some p =>
    refine ⟨⟨[], rfl⟩, fun q v hq hv hr hw => ?_⟩
    rw [hcho] at hc
    obtain rfl := Option.some.inj (hcho.symm.trans hq)
    rw [if_pos (mem_table v), Int.add_zero] at hw
    have hv := Mem.eligible_of_starved hr hw
    obtain ⟨hp, hleast⟩ := leastBy_spec hc.symm
    obtain ⟨helig, htest⟩ := Bool.and_eq_true_iff.mp hp
    refine ⟨Mem.not_dominated_of_eligible helig, Or.inl ⟨htest, fun htv => ?_⟩⟩
    exact hleast v (mem_table v) (by simp [hv, htv])

theorem selecting_afterB (htest : ∀ p, m.eligible p = true → m.testChild p = false)
    (hc : l.chosen = leastBy m.eligible (fun p => (m.proc p).heat) table) :
    Selecting (afterScan .passB m l).1 (afterScan .passB m l).2.1 (afterScan .passB m l).2.2 := by
  unfold afterScan
  cases hcho : l.chosen with
  | none =>
    rw [hcho, eq_comm, leastBy_eq_none] at hc
    exact fun p => hc p (mem_table p)
  | some p =>
    refine ⟨⟨[], rfl⟩, fun q v hq hv hr hw => ?_⟩
    rw [hcho] at hc
    obtain rfl := Option.some.inj (hcho.symm.trans hq)
    rw [if_pos (mem_table v), Int.add_zero] at hw
    have hv := Mem.eligible_of_starved hr hw
    obtain ⟨helig, hleast⟩ := leastBy_spec hc.symm
    exact ⟨Mem.not_dominated_of_eligible helig, Or.inr ⟨htest v hv, hleast v (mem_table v) hv⟩⟩

/-- Waiting longer changes nothing for those that do not wait. -/
theorem Mem.Beats.waits {p q v : Slot} (hq : q ≠ p) (h : m.Beats q v) : (m.setProc p { m.proc p with
    waitingTick := (m.proc p).waitingTick + 1 }).Beats q v := by
  have hproc : ∀ x, (m.setProc p { m.proc p with
      waitingTick := (m.proc p).waitingTick + 1 }).proc x = m.proc x ∨
        (m.setProc p { m.proc p with waitingTick := (m.proc p).waitingTick + 1 }).proc x =
          { m.proc x with waitingTick := (m.proc x).waitingTick + 1 } := by
    intro x
    by_cases hx : x = p
    · subst hx
      exact Or.inr (Mem.setProc_self ..)
    · exact Or.inl (Mem.setProc_of_ne hx ..)
  have htest : (m.setProc p { m.proc p with
      waitingTick := (m.proc p).waitingTick + 1 }).testChild = m.testChild := by
    funext x
    have hparent : ∀ y, ((m.setProc p { m.proc p with
        waitingTick := (m.proc p).waitingTick + 1 }).proc y).parent = (m.proc y).parent := fun y => by
      obtain hy | hy := hproc y <;> rw [hy]
    have hname : ∀ y, ((m.setProc p { m.proc p with
        waitingTick := (m.proc p).waitingTick + 1 }).proc y).name = (m.proc y).name := fun y => by
      obtain hy | hy := hproc y <;> rw [hy]
    simp only [Mem.testChild, hparent, hname]
  unfold Mem.Beats at h ⊢
  rw [htest, Mem.setProc_of_ne hq, Mem.setProc_cpuTemp]
  obtain hv | hv := hproc v <;> rwa [hv]

/-- STEP 4 counts the round for one slot. -/
theorem Mem.Passed.visit4 {p : Slot} {todo : List Slot} (hp : p ∉ todo)
    (h : m.Passed l.chosen (p :: todo)) : (visit4 p m l).1.Passed l.chosen todo := by
  unfold Xv6.visit4
  dsimp only
  split_ifs with hr
  · intro q v hq hv hrv hwv
    have hqp : q ≠ p := fun hqp => hr.2 (hqp ▸ hq)
    by_cases hvp : v = p
    · subst hvp
      refine (h q v hq hv hr.1 ?_).waits hqp
      simp only [if_neg hp, Mem.setProc_self] at hwv
      simp only [List.mem_cons_self, if_true]
      omega
    · rw [Mem.setProc_of_ne hvp] at hrv hwv
      refine (h q v hq hv hrv ?_).waits hqp
      simpa [hvp] using hwv
  · intro q v hq hv hrv hwv
    have hvp : v ≠ p := by
      rintro rfl
      refine hr ⟨hrv, ?_⟩
      rw [hq]
      exact fun h => hv (Option.some.inj h).symm
    refine h q v hq hv hrv ?_
    simpa [hvp] using hwv

/-! ## A step of the scheduler -/

theorem todo_of_table {done todo : List Slot} {p : Slot} (h : done ++ p :: todo = table) :
    (done ++ [p]) ++ todo = table ∧ p ∉ todo := by
  refine ⟨by rw [List.append_assoc]; exact h, ?_⟩
  have hnd := table_nodup
  rw [← h] at hnd
  exact (List.nodup_cons.mp (List.nodup_append.mp hnd).2.1).1

theorem selecting_passA {todo : List Slot} {pc' : SchedPc} (h : Selecting m l (.scan .passA todo))
    (hs : SchedStep m l (.scan .passA todo) m' l' pc') : Selecting m' l' pc' := by
  obtain ⟨done, hdone, hc⟩ := h
  cases hs with
  | @next _ p _ _ _ hv =>
    obtain ⟨m₁, l₁, hA, hm, hl⟩ := visitA_spec p m l
    simp only [visit, hA, Prod.mk.injEq, and_true] at hv
    obtain ⟨rfl, rfl⟩ := hv
    refine ⟨done ++ [p], (todo_of_table hdone).1, ?_⟩
    rw [hl, hm.eligible, hm.testChild, hm.proc, hc, leastBy_concat]
  | @found _ p _ _ _ hv =>
    obtain ⟨m₁, l₁, hA, -⟩ := visitA_spec p m l
    simp [visit, hA] at hv
  | done =>
    rw [List.append_nil] at hdone
    exact selecting_afterA (hdone ▸ hc)

theorem selecting_passB {todo : List Slot} {pc' : SchedPc}
    (hheat : ∀ p, (m.proc p).heat ≤ MAX_HEAT) (h : Selecting m l (.scan .passB todo))
    (hs : SchedStep m l (.scan .passB todo) m' l' pc') : Selecting m' l' pc' := by
  obtain ⟨htest, hlow, done, hdone, hc⟩ := h
  cases hs with
  | @next _ p _ _ _ hv =>
    obtain ⟨m₁, l₁, hB, hm, hlow₁, hl⟩ := visitB_lowest p m l hlow fun _ => hheat p
    simp only [visit, hB, Prod.mk.injEq, and_true] at hv
    obtain ⟨rfl, rfl⟩ := hv
    refine ⟨?_, hlow₁, done ++ [p], (todo_of_table hdone).1, ?_⟩
    · rw [hm.eligible, hm.testChild]
      exact htest
    · rw [hl, hm.eligible, hm.proc, hc, leastBy_concat]
  | @found _ p _ _ _ hv =>
    obtain ⟨m₁, l₁, hB, -⟩ := visitB_spec p m l
    simp [visit, hB] at hv
  | done =>
    rw [List.append_nil] at hdone
    exact selecting_afterB htest (hdone ▸ hc)

theorem selecting_passC {todo : List Slot} {pc' : SchedPc} (h : Selecting m l (.scan .passC todo))
    (hs : SchedStep m l (.scan .passC todo) m' l' pc') : Selecting m' l' pc' := by
  refine hs.scan (I := fun m _ => ∀ p, m.eligible p = false) (C := Selecting) (fun p => ?_)
    (fun _ _ _ hI => ?_) (fun m l hI => ?_) h
  · rwa [visit, visitC_mem]
  · exact hI
  · -- no process has waited long enough
    refine ⟨⟨[], rfl⟩, fun p v _ _ hr hw => ?_⟩
    rw [if_pos (mem_table v), Int.add_zero] at hw
    exact absurd (Mem.eligible_of_starved hr hw) (Bool.eq_false_iff.mp (hI v))

theorem selecting_step4 {todo : List Slot} {pc' : SchedPc} (h : Selecting m l (.scan .step4 todo))
    (hs : SchedStep m l (.scan .step4 todo) m' l' pc') : Selecting m' l' pc' := by
  obtain ⟨⟨done, hdone⟩, hpassed⟩ := h
  cases hs with
  | @next _ p _ _ _ hv =>
    obtain ⟨hdone', hp⟩ := todo_of_table hdone
    have hnext := hpassed.visit4 hp
    rw [visit, visit4_eq, Prod.mk.injEq, Prod.mk.injEq] at hv
    obtain ⟨rfl, rfl, -⟩ := hv
    exact ⟨⟨_, hdone'⟩, hnext⟩
  | @found _ p _ _ _ hv =>
    rw [visit, visit4_eq] at hv
    simp at hv
  | done => exact hpassed

/-- The scans before STEP 2 choose nothing. -/
theorem selecting_early {pass : Pass} (hpass : pass = .step0 ∨ pass = .step1) {todo : List Slot}
    {pc' : SchedPc} (h : l.chosen = none) (hs : SchedStep m l (.scan pass todo) m' l' pc') :
    Selecting m' l' pc' := by
  refine hs.scan (I := fun _ l => l.chosen = none) (C := Selecting) (fun p => ?_)
    (fun _ _ _ hI => ?_) (fun m l hI => ?_) h
  · obtain rfl | rfl := hpass
    · simp only [visit, visit0]
      split_ifs <;> exact h
    · exact h
  · obtain rfl | rfl := hpass <;> exact hI
  · obtain rfl | rfl := hpass
    · simp only [afterScan]
      split_ifs <;> exact hI
    · exact hI

/-- Every step of the scheduler keeps it. -/
theorem Selecting.step {pc pc' : SchedPc} (hheat : ∀ p, (m.proc p).heat ≤ MAX_HEAT)
    (h : Selecting m l pc) (hs : SchedStep m l pc m' l' pc') : Selecting m' l' pc' := by
  match pc with
  | .scan .step0 _ => exact selecting_early (Or.inl rfl) h hs
  | .scan .step1 _ => exact selecting_early (Or.inr rfl) h hs
  | .scan .passA _ => exact selecting_passA h hs
  | .scan .passB _ => exact selecting_passB hheat h hs
  | .scan .passC _ => exact selecting_passC h hs
  | .scan .step4 _ => exact selecting_step4 h hs
  | .top =>
    cases hs with
    | top hpass => obtain rfl | rfl := hpass <;> exact (rfl : (none : Option Slot) = none)
  | .step2 =>
    cases hs with
    | throttle htemp => trivial
    | select htemp => exact ⟨[], rfl, h⟩
  | .step5 => cases hs <;> trivial
  | .swtch => cases hs

namespace Kernel

variable {s s' : Kernel 1}

/-- Where the one CPU is : in a process, at the top of its loop when a handler runs, and else
in a round that has got as far as `Selecting` says. -/
structure InRound (s : Kernel 1) : Prop where
  busy : ∀ p, (s.cpu 0).proc = some p → (s.cpu 0).pc = .swtch
  intr : (s.cpu 0).proc = none → (s.cpu 0).intr ≠ none → (s.cpu 0).pc = .top
  selecting : Selecting s.mem (s.cpu 0).loc (s.cpu 0).pc

theorem boot_inRound : (boot 1).InRound :=
  ⟨fun _ h => (by cases h), fun _ h => absurd rfl h, trivial⟩

/-- At the top of the loop, or in a process. -/
theorem InRound.of_pc (hpc : (s.cpu 0).pc = .top ∨ (s.cpu 0).pc = .swtch)
    (hbusy : ∀ p, (s.cpu 0).proc = some p → (s.cpu 0).pc = .swtch)
    (hintr : (s.cpu 0).proc = none → (s.cpu 0).intr ≠ none → (s.cpu 0).pc = .top) : s.InRound := by
  refine ⟨hbusy, hintr, ?_⟩
  obtain h | h := hpc <;> rw [h] <;> trivial

/-- A step that is not the scheduler's is taken at the top of the loop or in a process, and leaves
the CPU at one of them. -/
theorem InRound.of_ne_sched {a : KAct} (h : s.InRound) (hplaced : s.Placed) (ha : a ≠ .sched)
    (hs : s.step 0 a = some s') :
    ((s.cpu 0).pc = .top ∨ (s.cpu 0).pc = .swtch) ∧
      ((s'.cpu 0).pc = .top ∨ (s'.cpu 0).pc = .swtch) ∧ s'.InRound := by
  -- a change of the handler leaves the scheduler where it is
  have handler : ∀ i, s'.cpu = Function.update s.cpu 0 { s.cpu 0 with intr := i } →
      ((s.cpu 0).proc = none → (s.cpu 0).pc = .top) →
      ((s.cpu 0).pc = .top ∨ (s.cpu 0).pc = .swtch) ∧
        ((s'.cpu 0).pc = .top ∨ (s'.cpu 0).pc = .swtch) ∧ s'.InRound := by
    intro i hcpu hidle
    have hself : s'.cpu 0 = { s.cpu 0 with intr := i } := by rw [hcpu, Function.update_self]
    have hpc : (s.cpu 0).pc = .top ∨ (s.cpu 0).pc = .swtch := by
      cases hp : (s.cpu 0).proc with
      | none => exact Or.inl (hidle hp)
      | some p => exact Or.inr (h.busy p hp)
    have hpc' : (s'.cpu 0).pc = .top ∨ (s'.cpu 0).pc = .swtch := by rwa [hself]
    refine ⟨hpc, hpc', .of_pc hpc' ?_ ?_⟩
    · rw [hself]
      exact h.busy
    · rw [hself]
      exact fun hp _ => hidle hp
  cases step_turned (hplaced.alive 0) hs with
  | thread p hrun hintr hcpu htemp hself hother =>
    have hpc := h.busy p hrun
    refine ⟨Or.inr hpc, Or.inr (hcpu ▸ hpc), .of_pc (Or.inr (hcpu ▸ hpc)) ?_ ?_⟩
    · rw [hcpu]
      exact h.busy
    · rw [hcpu]
      exact h.intr
  | leave p hrun hcpu htemp hself hother =>
    have hself : s'.cpu 0 = { s.cpu 0 with proc := none, pc := .top, intr := none } := by
      rw [hcpu, Function.update_self]
    have htop : (s'.cpu 0).pc = .top := by rw [hself]
    refine ⟨Or.inr (h.busy p hrun), Or.inl htop, .of_pc (Or.inl htop) ?_ fun _ _ => htop⟩
    rw [hself]
    intro q hq
    cases hq
  | sched m l pc ha' hidle hintr hstep hpc hcpu hmem hthread => exact absurd ha' ha
  | dispatch p ha' hidle hintr hpc hchosen hr hcpu htemp hthread => exact absurd ha' ha
  | take user i ha' hintr hok hi hcpu htemp hthread =>
    refine handler _ hcpu fun hidle => ?_
    simp only [interruptible, hidle, Bool.and_eq_true, beq_iff_eq] at hok
    exact hok.1
  | handle i i' ha' hintr hcpu htemp hlate hthread =>
    exact handler _ hcpu fun hidle => h.intr hidle (by rw [hintr]; simp)
  | heat user ha' hintr hcpu htemp hthread =>
    exact handler _ hcpu fun hidle => h.intr hidle (by rw [hintr]; simp)

theorem InRound.step {c : Fin 1} {a : KAct} (h : s.InRound) (hplaced : s.Placed)
    (htempered : s.Tempered) (hs : s.step c a = some s') : s'.InRound := by
  obtain rfl : c = 0 := Subsingleton.elim c 0
  by_cases ha : a = .sched
  · subst ha
    obtain ⟨hidle, -, -⟩ := step_sched hs
    cases step_turned (hplaced.alive 0) hs with
    | sched m l pc ha' hidle hintr hstep hpc hcpu hmem hthread =>
      have hself : s'.cpu 0 = { s.cpu 0 with loc := l, pc := pc } := by
        rw [hcpu, Function.update_self]
      refine ⟨?_, ?_, ?_⟩
      · rw [hself, hidle]
        intro p hp
        cases hp
      · rw [hself, hintr]
        exact fun _ h => absurd rfl h
      · rw [hself, hmem]
        exact h.selecting.step (fun p => (htempered p).le) (schedStep_cases hstep)
    | dispatch p ha' hidle hintr hpc hchosen hr hcpu htemp hthread =>
      have hself : s'.cpu 0 = { s.cpu 0 with proc := some p, pc := .swtch } := by
        rw [hcpu, Function.update_self]
      have hpc : (s'.cpu 0).pc = .swtch := by rw [hself]
      refine .of_pc (Or.inr hpc) (fun _ _ => hpc) ?_
      rw [hself]
      intro hp
      cases hp
    | thread p hrun | leave p hrun => rw [hidle] at hrun; cases hrun
    | take user i ha => exact absurd rfl ha
    | handle i i' ha | heat user ha => cases ha
  · exact (h.of_ne_sched hplaced ha hs).2.2

/-- It holds in every state of every run. -/
theorem inRound_of_reachWhen {C : Kernel 1 → Fin 1 × KAct → Prop}
    (h : (kernelMachine 1).ReachWhen C s) : s.InRound := by
  refine h.invariant (I := InRound) ?_ fun s a s' hr hin _ hs => ?_
  · rintro s rfl
    exact boot_inRound
  · exact hin.step (placed_of_reachWhen hr) (tempered_of_reachWhen hr) hs

end Kernel

end Xv6
