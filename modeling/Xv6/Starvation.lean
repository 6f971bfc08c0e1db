import Xv6.Selection

/-!
# How long a process may wait

The scheduler's protection against starvation lifts the thermal gate from a process that has
waited `STARVE_TICKS` rounds, and does no more than that. On one CPU, the gate rejects a
process in at most `STARVE_TICKS` rounds since it last ran, and a round that passes a process over
that has waited longer prefers a child of a test or a process that is not hotter
(`gate_rejects_at_most`).

There is no bound on the rounds that a process waits (`waitingTick_unbounded`) : five processes
that never sleep, in the first five slots, are cool again by the time it is their turn, and a
sixth never runs.
-/

namespace Xv6

open Function (update_self update_of_ne)

/-! ## Rejections -/

/-- The gate has rejected the process in this round, and STEP 4 is still to count it. -/
def Mem.Late (m : Mem) (v : Slot) (k : ℕ) : Prop :=
  (k : Int) ≤ (m.proc v).waitingTick ∨
    ((m.proc v).state = .runnable ∧ (k : Int) ≤ (m.proc v).waitingTick + 1)

/-- STEP 4 has counted the round, unless the process is the chosen one. -/
def Mem.Settled (m : Mem) (chosen : Option Slot) (v : Slot) (k : ℕ) : Prop :=
  (k : Int) ≤ (m.proc v).waitingTick ∨
    (chosen = some v ∧ (m.proc v).state = .runnable ∧ (k : Int) ≤ (m.proc v).waitingTick + 1)

/-- How `k`, the rounds in which the gate rejected `v`, compares with the rounds counted. -/
def Owed (m : Mem) (l : Locals) (v : Slot) (k : ℕ) : SchedPc → Prop
  | .scan .passA todo => if v ∈ todo then (k : Int) ≤ (m.proc v).waitingTick else m.Late v k
  | .scan .passB _ | .scan .passC _ => m.Late v k
  | .scan .step4 todo => if v ∈ todo then m.Late v k else m.Settled l.chosen v k
  | .step5 => m.Settled l.chosen v k
  | _ => (k : Int) ≤ (m.proc v).waitingTick

/-- Pass A is at the slot of `v`, and the gate rejects it. -/
def rejects (m : Mem) (v : Slot) : SchedPc → Bool
  | .scan .passA (p :: _) =>
    p == v && (m.proc v).state == .runnable && (m.proc v).dominated m.cpuTemp
  | _ => false

variable {m m' : Mem} {l l' : Locals} {v : Slot} {k : ℕ}

theorem Mem.SameTable.late (h : m.SameTable m') (hl : m.Late v k) : m'.Late v k := by
  unfold Mem.Late at hl ⊢
  rwa [h.proc]

theorem Mem.Late.settled (h : m.Late v k) (hc : l.chosen = some v ∨ (m.proc v).state ≠ .runnable) :
    m.Settled l.chosen v k := by
  obtain h | ⟨hr, h⟩ := h
  · exact Or.inl h
  · obtain hc | hc := hc
    · exact Or.inr ⟨hc, hr, h⟩
    · exact absurd hr hc

/-- After Pass A, Pass B or Pass C. -/
theorem owed_afterScan {pass : Pass} (hpass : pass = .passA ∨ pass = .passB ∨ pass = .passC)
    (h : m.Late v k) : Owed (afterScan pass m l).1 (afterScan pass m l).2.1 v k
      (afterScan pass m l).2.2 := by
  obtain rfl | rfl | rfl := hpass
  · unfold afterScan
    cases l.chosen with
    | none => exact h
    | some p => simpa only [Owed, mem_table, if_true] using h
  · unfold afterScan
    cases l.chosen with
    | none => exact h
    | some p => simpa only [Owed, mem_table, if_true] using h
  · simpa only [afterScan, Owed, mem_table, if_true] using h

theorem owed_passA {todo : List Slot} {pc' : SchedPc} (hsel : Selecting m l (.scan .passA todo))
    (h : Owed m l v k (.scan .passA todo)) (hs : SchedStep m l (.scan .passA todo) m' l' pc') :
    Owed m' l' v (if rejects m v (.scan .passA todo) then k + 1 else k) pc' := by
  obtain ⟨done, hdone, -⟩ := hsel
  cases hs with
  | done => exact owed_afterScan (Or.inl rfl) (by simpa [Owed, rejects] using h)
  | @found _ p _ _ _ hv =>
    obtain ⟨m₁, l₁, hA, -⟩ := visitA_spec p m l
    simp [visit, hA] at hv
  | @next _ p todo _ _ hv =>
    obtain ⟨-, hp⟩ := todo_of_table hdone
    obtain ⟨m₁, l₁, hA, hm, -⟩ := visitA_spec p m l
    simp only [visit, hA, Prod.mk.injEq, and_true] at hv
    obtain ⟨rfl, rfl⟩ := hv
    by_cases hvp : v = p
    · subst hvp
      simp only [Owed, List.mem_cons_self, if_true] at h
      simp only [Owed, hp, if_false]
      refine hm.late ?_
      split_ifs with hrej
      · simp only [rejects, beq_self_eq_true, Bool.true_and, Bool.and_eq_true, beq_iff_eq] at hrej
        refine Or.inr ⟨hrej.1, ?_⟩
        push_cast
        omega
      · exact Or.inl h
    · have hrej : rejects m v (.scan .passA (p :: todo)) = false := by
        simp [rejects, Ne.symm hvp]
      rw [hrej]
      simp only [Owed, List.mem_cons, hvp, false_or] at h ⊢
      simp only [Bool.false_eq_true, if_false, hm.proc]
      split_ifs at h ⊢
      · exact h
      · exact hm.late h

theorem owed_step4 {todo : List Slot} {pc' : SchedPc} (hsel : Selecting m l (.scan .step4 todo))
    (h : Owed m l v k (.scan .step4 todo)) (hs : SchedStep m l (.scan .step4 todo) m' l' pc') :
    Owed m' l' v k pc' := by
  obtain ⟨⟨done, hdone⟩, -⟩ := hsel
  cases hs with
  | done => simpa [Owed, afterScan] using h
  | @found _ p _ _ _ hv =>
    rw [visit, visit4_eq] at hv
    simp at hv
  | @next _ p todo _ _ hv =>
    obtain ⟨-, hp⟩ := todo_of_table hdone
    simp only [visit, visit4] at hv
    by_cases hr : (m.proc p).state = .runnable ∧ l.chosen ≠ some p
    · simp only [if_pos hr, Prod.mk.injEq, and_true] at hv
      obtain ⟨rfl, rfl⟩ := hv
      by_cases hvp : v = p
      · subst hvp
        simp only [Owed, List.mem_cons_self, if_true] at h
        simp only [Owed, hp, if_false]
        left
        simp only [Mem.setProc_self]
        obtain h | ⟨-, h⟩ := h <;> omega
      · simpa [Owed, hvp, Mem.Late, Mem.Settled, Mem.setProc_of_ne] using h
    · simp only [if_neg hr, Prod.mk.injEq, and_true] at hv
      obtain ⟨rfl, rfl⟩ := hv
      by_cases hvp : v = p
      · subst hvp
        simp only [Owed, List.mem_cons_self, if_true] at h
        simp only [Owed, hp, if_false]
        refine h.settled ?_
        by_contra hne
        exact hr ⟨by_contra fun hr => hne (Or.inr hr), fun hc => hne (Or.inl hc)⟩
      · simpa [Owed, hvp] using h

theorem Proc.decay_waitingTick (p : Proc) : p.decay.waitingTick = p.waitingTick := by
  unfold decay
  split_ifs <;> rfl

theorem owed_early {pass : Pass} (hpass : pass = .step0 ∨ pass = .step1) {todo : List Slot}
    {pc' : SchedPc} (h : (k : Int) ≤ (m.proc v).waitingTick)
    (hs : SchedStep m l (.scan pass todo) m' l' pc') : Owed m' l' v k pc' := by
  refine hs.scan (I := fun m _ => (k : Int) ≤ (m.proc v).waitingTick)
    (C := fun m l pc => Owed m l v k pc) (fun p => ?_) (fun _ _ _ hI => ?_) (fun m l hI => ?_) h
  · obtain rfl | rfl := hpass
    · rwa [visit, visit0_mem]
    · simp only [visit, visit1]
      by_cases hvp : v = p
      · subst hvp
        rwa [Mem.setProc_self, Proc.decay_waitingTick]
      · rwa [Mem.setProc_of_ne hvp]
  · obtain rfl | rfl := hpass <;> exact hI
  · obtain rfl | rfl := hpass
    · simp only [afterScan]
      split_ifs <;> exact hI
    · exact hI

theorem owed_late {pass : Pass} (hpass : pass = .passB ∨ pass = .passC) {todo : List Slot}
    {pc' : SchedPc} (h : m.Late v k) (hs : SchedStep m l (.scan pass todo) m' l' pc') :
    Owed m' l' v k pc' := by
  refine hs.scan (I := fun m _ => m.Late v k) (C := fun m l pc => Owed m l v k pc) (fun p => ?_)
    (fun _ _ _ hI => ?_) (fun m l hI => owed_afterScan (Or.inr hpass) hI) h
  · obtain rfl | rfl := hpass
    · simpa only [Mem.Late, visit, (visitB_table p m l).1] using h
    · rwa [visit, visitC_mem]
  · obtain rfl | rfl := hpass <;> exact hI

/-- A step of the scheduler that is no dispatch. -/
theorem owed_step {pc pc' : SchedPc} (hsel : Selecting m l pc) (h : Owed m l v k pc)
    (hs : SchedStep m l pc m' l' pc') (hpc : pc' ≠ .swtch) :
    Owed m' l' v (if rejects m v pc then k + 1 else k) pc' := by
  match pc with
  | .scan .step0 _ => simpa [rejects] using owed_early (Or.inl rfl) h hs
  | .scan .step1 _ => simpa [rejects] using owed_early (Or.inr rfl) h hs
  | .scan .passA _ => exact owed_passA hsel h hs
  | .scan .passB _ => simpa [rejects] using owed_late (Or.inl rfl) h hs
  | .scan .passC _ => simpa [rejects] using owed_late (Or.inr rfl) h hs
  | .scan .step4 _ => simpa [rejects] using owed_step4 hsel h hs
  | .top =>
    cases hs with
    | top hpass => obtain rfl | rfl := hpass <;> exact h
  | .step2 =>
    cases hs with
    | throttle htemp => simpa [rejects, Owed] using h
    | select htemp => simpa [rejects, Owed, mem_table] using h
  | .step5 =>
    cases hs with
    | idle hc => simpa [rejects, Owed, Mem.Settled, hc] using h
    | dispatch hc hr => exact absurd rfl hpc
    | gone hc hr =>
      obtain h | ⟨hv, hr', -⟩ := h
      · simpa [rejects, Owed] using h
      · rw [hc] at hv
        exact absurd hr' (Option.some.inj hv ▸ hr)
  | .swtch => cases hs

namespace Kernel

variable {s s' : Kernel 1}

/-- The process gets the CPU in this step, or its slot is allocated. -/
def renews (s : Kernel 1) (a : KAct) (v : Slot) : Bool :=
  match a, (s.cpu 0).proc with
  | .sched, none => (s.cpu 0).pc == .step5 && (s.cpu 0).loc.chosen == some v &&
      (s.mem.proc v).state == .runnable
  | .run _, some p =>
    match (s.thread p).pc with
    | .forkAlloc (x :: _) => x == v && (s.mem.proc v).state == .unused
    | _ => false
  | _, _ => false

/-- The rounds in which the gate rejected each process since it last ran. -/
def rejections (r : Slot → ℕ) (s : Kernel 1) (a : Fin 1 × KAct) : Slot → ℕ := fun v =>
  if a.2 = .sched ∧ rejects s.mem v (s.cpu 0).pc then r v + 1
  else if s.renews a.2 v then 0 else r v

/-- The count of `v` is within the rounds it has waited. -/
structure Fair (s : Kernel 1) (v : Slot) (k : ℕ) : Prop where
  le : (k : Int) ≤ STARVE_TICKS
  owed : Owed s.mem (s.cpu 0).loc v k (s.cpu 0).pc

/-- A step that is not the scheduler's. -/
theorem Fair.of_ne_sched {a : KAct} {v : Slot} {k : ℕ} (h : s.Fair v k) (hin : s.InRound)
    (hplaced : s.Placed) (ha : a ≠ .sched) (hs : s.step 0 a = some s') :
    s'.Fair v (if s.renews a v then 0 else k) := by
  obtain ⟨hpc, hpc', -⟩ := hin.of_ne_sched hplaced ha hs
  have hold : (k : Int) ≤ (s.mem.proc v).waitingTick := by
    have := h.owed
    obtain hpc | hpc := hpc <;> rw [hpc] at this <;> exact this
  have of_le : ∀ k' : ℕ, (k' : Int) ≤ STARVE_TICKS → (k' : Int) ≤ (s'.mem.proc v).waitingTick →
      s'.Fair v k' := by
    intro k' hle hwt
    refine ⟨hle, ?_⟩
    obtain hpc | hpc := hpc' <;> rw [hpc] <;> exact hwt
  -- nothing is lost while the count of rounds does not fall
  have mono : (s.mem.proc v).waitingTick ≤ (s'.mem.proc v).waitingTick →
      s'.Fair v (if s.renews a v then 0 else k) := by
    intro hwt
    have hle := h.le
    refine of_le _ ?_ ?_ <;> split_ifs <;> push_cast <;> omega
  have slot : ∀ {x : Slot} {q : Proc}, s'.mem.proc = Function.update s.mem.proc x q →
      (s.mem.proc x).waitingTick ≤ q.waitingTick → s'.Fair v (if s.renews a v then 0 else k) := by
    intro x q hproc hq
    refine mono ?_
    rw [hproc]
    by_cases hv : v = x
    · rwa [hv, update_self]
    · rw [update_of_ne hv]
  have renewed : ∀ {p x : Slot} {todo : List Slot} {ok : Bool} {q : Proc}, a = .run ok →
      (s.cpu 0).proc = some p → (s.thread p).pc = .forkAlloc (x :: todo) →
      (s.mem.proc x).state = .unused → s'.mem.proc = Function.update s.mem.proc x q →
      q.waitingTick = 0 → s'.Fair v (if s.renews a v then 0 else k) := by
    intro p x todo ok q ha hrun hpc hx hproc hq
    by_cases hv : v = x
    · subst hv
      have hren : s.renews a v = true := by simp [renews, ha, hrun, hpc, hx]
      rw [if_pos hren]
      refine of_le 0 (by decide) ?_
      rw [hproc, update_self, hq]
      decide
    · refine mono ?_
      rw [hproc, update_of_ne hv]
  cases step_moved hs with
  | slot x q hproc hq hquiet =>
    refine slot hproc ?_
    cases hq with
    | refl | adopt => exact Int.le_refl _
    | decay => rw [Proc.decay_waitingTick]
    | waits => exact Int.le_add_one (Int.le_refl _)
    | wakeup chan =>
      unfold Proc.wakeup
      split_ifs <;> exact Int.le_refl _
  | own p q hrun hproc hq hquiet => exact slot hproc (by cases hq <;> exact Int.le_refl _)
  | kill p x pid todo ok ha hrun hpc hpid hproc hret hquiet => exact slot hproc (Int.le_refl _)
  | alloc p x todo ok sz name ha hrun hpc hx hproc hcpu hforks hp =>
    exact renewed ha hrun hpc hx hproc rfl
  | allocFail p x todo ok ha hrun hpc hx hproc hquiet => exact renewed ha hrun hpc hx hproc rfl
  | parent p np hforks hproc hquiet => exact slot hproc (Int.le_refl _)
  | start p np hforks hproc hdone hquiet => exact slot hproc (Int.le_refl _)
  | reap x hx hproc hquiet => exact slot hproc (Int.le_refl _)
  | leave p q hrun hproc hq hcpu hforks => exact slot hproc (by cases hq <;> exact Int.le_refl _)
  | dispatch p q hidle hpc5 hchosen hproc hq hcpu hforks =>
    rw [hpc5] at hpc
    obtain h | h := hpc <;> cases h

/-- A step of the scheduler. -/
theorem Fair.sched {v : Slot} {k : ℕ} (h : s.Fair v k) (hin : s.InRound)
    (hs : s.step 0 .sched = some s') :
    s'.Fair v (if rejects s.mem v (s.cpu 0).pc then k + 1 else if s.renews .sched v then 0 else k) := by
  obtain ⟨hidle, hintr, hs⟩ := step_sched hs
  obtain ⟨m, l, pc, hstep, hpc, -, rfl⟩ | ⟨p, hpc, hchosen, hr, hs'⟩ := schedule_cases hs
  · have howed := owed_step hin.selecting h.owed (schedStep_cases hstep) hpc
    have hren : s.renews .sched v = false := by
      by_contra hren
      simp only [renews, hidle, Bool.not_eq_false, Bool.and_eq_true, beq_iff_eq] at hren
      obtain ⟨⟨hpc5, hchosen⟩, hr⟩ := hren
      simp only [hpc5, schedStep, hchosen, if_pos hr, Option.some.injEq, Prod.mk.injEq] at hstep
      exact hpc hstep.2.2.symm
    simp only [hren, Bool.false_eq_true, if_false]
    refine ⟨?_, by simpa [setCpu] using howed⟩
    have hle := h.le
    split_ifs with hrej
    · -- the gate rejects only who has not waited long enough
      unfold rejects at hrej
      split at hrej
      · rename_i q todo hpcA
        simp only [Bool.and_eq_true, beq_iff_eq] at hrej
        obtain ⟨⟨rfl, -⟩, hdom⟩ := hrej
        have hlate : (s.mem.proc q).waitingTick < STARVE_TICKS := by
          simp only [Proc.dominated, Bool.and_eq_true, decide_eq_true_eq] at hdom
          exact hdom.1
        have hk := h.owed
        rw [hpcA] at hk
        simp only [Owed, List.mem_cons_self, if_true] at hk
        push_cast
        omega
      · cases hrej
    · exact hle
  · have hres := resume_eq ({ s with
      mem := Xv6.dispatch s.mem (s.cpu 0).loc p }.setCpu 0 { s.cpu 0 with pc := .swtch }) 0 p
    rw [← hs'] at hres
    obtain ⟨⟨chan, hproc⟩, -, -, hpc'⟩ := hres
    have hsw : (s'.cpu 0).pc = .swtch := by
      rw [hpc']
      simp [setCpu]
    have hrej : rejects s.mem v (s.cpu 0).pc = false := by
      rw [hpc]
      rfl
    simp only [hrej, Bool.false_eq_true, if_false]
    by_cases hv : v = p
    · subst hv
      have hren : s.renews .sched v = true := by simp [renews, hidle, hpc, hchosen, hr]
      rw [if_pos hren]
      refine ⟨by decide, ?_⟩
      rw [hsw]
      change ((0 : ℕ) : Int) ≤ (s'.mem.proc v).waitingTick
      rw [hproc]
      simp [setCpu]
    · have hren : s.renews .sched v = false := by
        simp only [renews, hidle, hchosen]
        simp [Ne.symm hv]
      rw [hren]
      refine ⟨h.le, ?_⟩
      rw [hsw]
      have howed := h.owed
      rw [hpc] at howed
      obtain howed | ⟨hc, -⟩ := howed
      · change (k : Int) ≤ (s'.mem.proc v).waitingTick
        rw [hproc]
        simpa [setCpu, hv] using howed
      · exact absurd (Option.some.inj (hc.symm.trans hchosen)) hv

/-- The count holds in every state of every run. -/
theorem fair_of_reachable {r : Slot → ℕ}
    (h : ((kernelMachine 1).observe (fun _ => 0) rejections).Reachable (s, r)) (v : Slot) :
    s.Fair v (r v) := by
  refine h.invariant (I := fun x : Kernel 1 × (Slot → ℕ) => x.1.Fair v (x.2 v)) ?_ ?_
  · rintro ⟨s, r⟩ ⟨rfl, rfl⟩
    refine ⟨show ((0 : ℕ) : Int) ≤ STARVE_TICKS by decide, ?_⟩
    by_cases hv : v = initproc
    · subst hv
      exact Int.le_refl 0
    · show ((0 : ℕ) : Int) ≤ ((boot 1).mem.proc v).waitingTick
      rw [boot_state hv]
      exact Int.le_refl 0
  · rintro ⟨s, r⟩ ⟨c, a⟩ ⟨s', r'⟩ hreach hfair - hstep
    obtain ⟨hs, hr⟩ := Machine.observe_step.mp hstep
    have hreach' := hreach.of_observe (C := fun _ _ => True)
    obtain rfl : c = 0 := Subsingleton.elim c 0
    simp only at hs hr hfair ⊢
    have hin := inRound_of_reachWhen hreach'
    rw [hr]
    unfold rejections
    by_cases ha : a = .sched
    · subst ha
      simpa using hfair.sched hin hs
    · simpa [ha] using hfair.of_ne_sched hin (placed_of_reachWhen hreach') ha hs

end Kernel

open Kernel

/-- On one CPU, in every state of every run : the gate has rejected a process in at most
`STARVE_TICKS` rounds since it last ran, and if STEP 5 is about to pass over a process that has
waited longer, then the chosen process was let through by the gate, and is a child of a test, with
the smaller pid if both are, or not hotter. -/
theorem gate_rejects_at_most {s : Kernel 1} (h : (kernelMachine 1).Reachable s) :
    (∀ r, ((kernelMachine 1).observe (fun _ => 0) rejections).Reachable (s, r) →
      ∀ p, (r p : Int) ≤ STARVE_TICKS) ∧
    ∀ p v, (s.cpu 0).pc = .step5 → (s.cpu 0).loc.chosen = some p → v ≠ p →
      (s.mem.proc v).state = .runnable → STARVE_TICKS < (s.mem.proc v).waitingTick →
        s.mem.Beats p v := by
  refine ⟨fun r hr p => (fair_of_reachable hr p).le, fun p v hpc hchosen hv hr hw => ?_⟩
  have hsel := (inRound_of_reachWhen h).selecting
  rw [hpc] at hsel
  refine hsel p v hchosen hv hr ?_
  simp only [List.not_mem_nil, if_false]
  omega

/-! ## A run that starves a process -/

theorem Proc.decay_name (p : Proc) : p.decay.name = p.name := by
  unfold decay
  split_ifs <;> rfl

/-- The gate lets everybody through on a cool CPU. -/
theorem Proc.dominated_of_cool (p : Proc) {t : Int} (h : t < WARM_TEMP) : p.dominated t = false := by
  have hw : ¬ t ≥ WARM_TEMP := Int.not_le.mpr h
  have hh : ¬ t ≥ HOT_TEMP := fun hh => hw (Int.le_trans (by decide) hh)
  simp [Proc.dominated, hw, hh]

/-- What STEP 1 leaves of the heat of an idle process. -/
def cooled (heat : Int) : Int :=
  if heat > 0 then if heat - HEAT_DECAY < 0 then 0 else heat - HEAT_DECAY else heat

theorem Proc.decay_heat {p : Proc} (h : p.state = .runnable) : p.decay.heat = cooled p.heat := by
  unfold decay cooled
  simp only [h, true_or, true_and]
  split_ifs <;> rfl

/-- The heat of the slots 0 to 4 after round `k`, where slot `k % 5` ran last. -/
def cycleHeat (k i : ℕ) : Int :=
  if i ≤ k then 10 - 2 * ((k - i) % 5 : ℕ) else 0

theorem cooled_cycleHeat_next (k : ℕ) : cooled (cycleHeat k ((k + 1) % 5)) = 0 := by
  unfold cooled cycleHeat
  simp only [HEAT_DECAY]
  split_ifs <;> omega

theorem cooled_cycleHeat_of_ne {k i : ℕ} (hi : i < 5) (hne : i ≠ (k + 1) % 5) :
    cooled (cycleHeat k i) = cycleHeat (k + 1) i := by
  unfold cooled cycleHeat
  simp only [HEAT_DECAY]
  split_ifs <;> omega

theorem cycleHeat_next_nonneg (k i : ℕ) (hi : i < 5) :
    0 ≤ cycleHeat (k + 1) i ∧ (i < (k + 1) % 5 → 0 < cycleHeat (k + 1) i) := by
  unfold cycleHeat
  split_ifs <;> omega

namespace Kernel

variable {s : Kernel 1}

/-- Nobody has a name, so there is no test. -/
def Plain (s : Kernel 1) : Prop :=
  ∀ q, (s.mem.proc q).name = []

/-- A process that runs is interrupted, and two timer interrupts in the scheduler follow. -/
theorem leads_rest {p : Slot} (hcalm : s.Calm) (hruns : s.Runs 0 p)
    (hp : (s.mem.proc p).state = .running) (htemp : s.mem.cpuTemp = 26) :
    ∃ s', (kernelMachine 1).Leads s s' ∧ s'.Calm ∧ s'.AtTop 0 ∧ s'.mem.cpuTemp = 25 ∧
      s'.mem.proc = Function.update s.mem.proc p { s.mem.proc p with state := .runnable } := by
  obtain ⟨s₁, hlead₁, hcalm₁, hcpu₁, hproc₁, htemp₁, -⟩ := leads_tick hcalm hruns hp
  obtain ⟨s₂, hlead₂, hcalm₂, htop₂, hproc₂, htemp₂, -⟩ := leads_yield (c := 0) (p := p) hcalm₁
    (by rw [hcpu₁, update_self]; exact hruns.1) (by rw [hcpu₁, update_self])
  obtain ⟨s₃, hlead₃, hcalm₃, hcpu₃, hproc₃, htemp₃, -⟩ := leads_idleTick hcalm₂ htop₂
  have htop₃ : s₃.AtTop 0 := by
    rw [AtTop, hcpu₃]
    exact htop₂
  obtain ⟨s₄, hlead₄, hcalm₄, hcpu₄, hproc₄, htemp₄, -⟩ := leads_idleTick hcalm₃ htop₃
  refine ⟨s₄, hlead₁.trans (hlead₂.trans (hlead₃.trans hlead₄)), hcalm₄, ?_, ?_, ?_⟩
  · rw [AtTop, hcpu₄]
    exact htop₃
  · rw [htemp₄, htemp₃, htemp₂, htemp₁, htemp]
    decide
  · rw [hproc₄, hproc₃, hproc₂, hproc₁]

/-- After round `k` : the first five slots take turns, and slot 5 waits. -/
structure Cycle (s : Kernel 1) (k : ℕ) : Prop where
  calm : s.Calm
  top : s.AtTop 0
  temp : s.mem.cpuTemp = 25
  plain : s.Plain
  state : ∀ q : Slot, (s.mem.proc q).state = if q.val ≤ 5 then .runnable else .unused
  heat : ∀ q : Slot, q.val < 5 → (s.mem.proc q).heat = cycleHeat k q.val
  last : (s.mem.proc 5).heat = 0
  waited : (s.mem.proc 5).waitingTick = k

/-- The slot whose turn it is. -/
def turn (k : ℕ) : Slot :=
  ⟨(k + 1) % 5, (Nat.mod_lt _ (by decide)).trans (by decide)⟩

theorem Plain.testChild (h : s.Plain) (q : Slot) : s.mem.decayed.testChild q = false := by
  unfold Mem.testChild
  split
  · rfl
  · simp only [Mem.decayed, Proc.decay_name, h _]
    decide

/-- The process whose turn it is has cooled down, and all before it have not. -/
theorem Cycle.pick {k : ℕ} (h : s.Cycle k) : s.mem.decayed.pick = some (turn k) := by
  have helig : ∀ q, s.mem.decayed.eligible q = true ↔ q.val ≤ 5 := by
    intro q
    have hcool : s.mem.cpuTemp < WARM_TEMP := by
      rw [h.temp]
      decide
    simp only [Mem.eligible, Mem.decayed, Proc.decay_state, h.state q, Proc.dominated_of_cool _ hcool]
    split_ifs with hq <;> simp [hq]
  have hturn : (turn k).val < 5 := Nat.mod_lt _ (by decide)
  have hheat : ∀ q : Slot, q.val ≤ 5 →
      (s.mem.decayed.proc q).heat = cooled (s.mem.proc q).heat := by
    intro q hq
    exact Proc.decay_heat (by rw [h.state q, if_pos hq])
  have hzero : (s.mem.decayed.proc (turn k)).heat = 0 := by
    rw [hheat _ (by omega), h.heat _ hturn]
    exact cooled_cycleHeat_next k
  refine Mem.pick_of_coolest h.plain.testChild ((helig _).mpr (by omega)) fun q hq => ?_
  have hq5 := (helig q).mp hq
  rw [hzero, hheat q hq5]
  by_cases hlast : q.val = 5
  · obtain rfl : q = 5 := Fin.ext hlast
    rw [h.last]
    exact Or.inr ⟨rfl, Nat.le_of_lt hturn⟩
  · have hlt : q.val < 5 := by omega
    rw [h.heat q hlt]
    by_cases hne : q.val = (k + 1) % 5
    · rw [hne, cooled_cycleHeat_next]
      exact Or.inr ⟨rfl, Nat.le_of_eq hne.symm⟩
    · rw [cooled_cycleHeat_of_ne hlt hne]
      obtain ⟨h0, hpos⟩ := cycleHeat_next_nonneg k q.val hlt
      by_cases hqt : q.val < (k + 1) % 5
      · exact Or.inl (hpos hqt)
      · by_cases hz : cycleHeat (k + 1) q.val = 0
        · exact Or.inr ⟨hz.symm, Nat.not_lt.mp hqt⟩
        · left
          omega

/-- One more round. -/
theorem Cycle.next {k : ℕ} (h : s.Cycle k) :
    ∃ s', (kernelMachine 1).Leads s s' ∧ s'.Cycle (k + 1) := by
  have hturn : (turn k).val < 5 := Nat.mod_lt _ (by decide)
  have hheated : (s.mem.proc (turn k)).decay.heated = 10 := by
    have hr : (s.mem.proc (turn k)).state = .runnable := by rw [h.state, if_pos (by omega)]
    unfold Proc.heated
    rw [Proc.decay_heat hr, h.heat _ hturn]
    simp only [turn, cooled_cycleHeat_next]
    decide
  obtain ⟨s₁, hlead₁, hcalm₁, hruns₁, hproc₁, htemp₁, -⟩ :=
    spins_dispatch h.calm h.top (by rw [h.temp]; decide) h.pick
  obtain ⟨s₂, hlead₂, hcalm₂, htop₂, htemp₂, hproc₂⟩ := leads_rest hcalm₁ hruns₁
    (by rw [hproc₁, Mem.dispatched, update_self]) (by rw [htemp₁, h.temp, hheated]; decide)
  have h5 : (5 : Slot) ≠ turn k := by
    intro h5
    rw [← h5] at hturn
    exact absurd hturn (by decide)
  -- the table after the round
  have hself : s₂.mem.proc (turn k) = { (s.mem.proc (turn k)).decay with
      state := .runnable, waitingTick := 0, heat := 10 } := by
    rw [hproc₂, update_self, hproc₁, Mem.dispatched, update_self, hheated]
  have hother : ∀ q, q ≠ turn k → s₂.mem.proc q = (s.mem.decayed.aged (some (turn k))).proc q := by
    intro q hq
    rw [hproc₂, update_of_ne hq, hproc₁, Mem.dispatched, update_of_ne hq]
  refine ⟨s₂, hlead₁.leads.trans hlead₂, hcalm₂, htop₂, htemp₂, fun q => ?_, fun q => ?_, fun q hq => ?_,
    ?_, ?_⟩
  · by_cases hqt : q = turn k
    · rw [hqt, hself]
      exact (Proc.decay_name _).trans (h.plain _)
    · rw [hother q hqt]
      simp only [Mem.aged]
      split_ifs <;> exact (Proc.decay_name _).trans (h.plain _)
  · by_cases hqt : q = turn k
    · rw [hqt, hself, if_pos (by omega)]
    · rw [hother q hqt, Mem.aged_state]
      exact (Proc.decay_state _).trans (h.state q)
  · by_cases hqt : q = turn k
    · rw [hqt, hself]
      simp only [turn, cycleHeat]
      split_ifs <;> omega
    · rw [hother q hqt, Mem.aged_heat]
      have hne : q.val ≠ (k + 1) % 5 := fun hval => hqt (Fin.ext hval)
      rw [← cooled_cycleHeat_of_ne hq hne, ← h.heat q hq]
      exact Proc.decay_heat (by rw [h.state q, if_pos (by omega)])
  · rw [hother 5 h5, Mem.aged_heat]
    refine (Proc.decay_heat (by rw [h.state]; rfl)).trans ?_
    rw [h.last]
    decide
  · rw [hother 5 h5]
    have hr : (s.mem.proc 5).decay.state = .runnable ∧ some (turn k) ≠ some (5 : Slot) :=
      ⟨by rw [Proc.decay_state, h.state]; rfl, fun hc => h5 (Option.some.inj hc).symm⟩
    simp only [Mem.aged, Mem.decayed, if_pos hr, Proc.decay_waitingTick, h.waited]
    push_cast
    rfl

/-- Init runs and has `m` children, in the slots 1 to `m`. -/
structure Forked (s : Kernel 1) (m : ℕ) : Prop where
  calm : s.Calm
  runs : s.Runs 0 initproc
  temp : s.mem.cpuTemp = 26
  plain : s.Plain
  init : (s.mem.proc initproc).state = .running ∧ (s.mem.proc initproc).heat = 10
  children : ∀ q : Slot, q ≠ initproc → q.val ≤ m →
    (s.mem.proc q).state = .runnable ∧ (s.mem.proc q).heat = 0 ∧ (s.mem.proc q).waitingTick = 0
  free : ∀ q : Slot, m < q.val → (s.mem.proc q).state = .unused

theorem boot_forked : ∃ s : Kernel 1, (kernelMachine 1).Reachable s ∧ s.Forked 0 := by
  obtain ⟨s, hreach, hcalm, hruns, hproc, htemp, -⟩ := boot_runs (n := 1) 0
  have hother : ∀ q, q ≠ initproc → s.mem.proc q = Proc.zero := by
    intro q hq
    rw [hproc, Mem.dispatched, update_of_ne hq]
    simp only [Mem.aged, Mem.decayed, boot_state hq]
    rfl
  refine ⟨s, hreach, hcalm, hruns, htemp, fun q => ?_, ⟨?_, ?_⟩, fun q hq h0 => ?_, fun q hq => ?_⟩
  · by_cases hq : q = initproc
    · rw [hproc, hq]
      rfl
    · rw [hother q hq]
      rfl
  · rw [hproc]
    rfl
  · rw [hproc]
    rfl
  · exact absurd (Fin.ext (Nat.le_zero.mp h0)) hq
  · rw [hother q (fun h => by rw [h] at hq; exact absurd hq (by decide))]
    rfl

theorem Forked.next {m : ℕ} (h : s.Forked m) (hm : m + 1 < NPROC) :
    ∃ s', (kernelMachine 1).Leads s s' ∧ s'.Forked (m + 1) := by
  have hx : (s.mem.proc ⟨m + 1, hm⟩).state = .unused := h.free _ (Nat.lt_succ_self m)
  have hinit : (s.mem.proc initproc).state ≠ .unused := by
    rw [h.init.1]
    simp
  obtain ⟨s', hlead, hcalm, hcpu, hproc, htemp, -⟩ := leads_fork h.calm h.runs hx hinit fun y hy => by
    by_cases hyi : y = initproc
    · rw [hyi]
      exact hinit
    · rw [(h.children y hyi (Nat.lt_succ_iff.mp hy)).1]
      simp
  have hne : initproc ≠ ⟨m + 1, hm⟩ := fun h => absurd (congrArg Fin.val h) (by simp [initproc])
  refine ⟨s', hlead, hcalm, ?_, htemp.trans h.temp, fun q => ?_, ?_, fun q hq hle => ?_, fun q hq => ?_⟩
  · rw [Runs, hcpu]
    exact h.runs
  · rw [hproc]
    by_cases hq : q = ⟨m + 1, hm⟩
    · simp [hq, child, h.plain initproc, safestrcpy]
    · rw [update_of_ne hq]
      exact h.plain q
  · rw [hproc, update_of_ne hne]
    exact h.init
  · rw [hproc]
    by_cases hqx : q = ⟨m + 1, hm⟩
    · simp [hqx, child, Proc.allocproc]
    · rw [update_of_ne hqx]
      exact h.children q hq (by
        have : q.val ≠ m + 1 := fun hval => hqx (Fin.ext hval)
        omega)
  · have hqx : q ≠ ⟨m + 1, hm⟩ := fun hqx => by
      rw [hqx] at hq
      exact absurd hq (Nat.lt_irrefl _)
    rw [hproc, update_of_ne hqx]
    exact h.free q (by omega)

theorem forked_reachable (m : ℕ) (hm : m < NPROC) :
    ∃ s : Kernel 1, (kernelMachine 1).Reachable s ∧ s.Forked m := by
  induction m with
  | zero => exact boot_forked
  | succ m ih =>
    obtain ⟨s, hreach, h⟩ := ih (Nat.lt_of_succ_lt hm)
    obtain ⟨s', hlead, h'⟩ := h.next hm
    exact ⟨s', .leads hreach hlead, h'⟩

/-- Init forks five children, and is interrupted. -/
theorem Forked.cycle (h : s.Forked 5) : ∃ s', (kernelMachine 1).Leads s s' ∧ s'.Cycle 0 := by
  obtain ⟨s', hlead, hcalm, htop, htemp, hproc⟩ := leads_rest h.calm h.runs h.init.1 h.temp
  have hother : ∀ q, q ≠ initproc → s'.mem.proc q = s.mem.proc q := by
    intro q hq
    rw [hproc, update_of_ne hq]
  have h5 : (5 : Slot) ≠ initproc := by decide
  refine ⟨s', hlead, hcalm, htop, htemp, fun q => ?_, fun q => ?_, fun q hq => ?_, ?_, ?_⟩
  · by_cases hq : q = initproc
    · rw [hproc, hq, update_self]
      exact h.plain initproc
    · rw [hother q hq]
      exact h.plain q
  · by_cases hq : q = initproc
    · rw [hproc, hq, update_self]
      rfl
    · rw [hother q hq]
      split_ifs with hle
      · exact (h.children q hq hle).1
      · exact h.free q (Nat.not_le.mp hle)
  · by_cases hqi : q = initproc
    · rw [hproc, hqi, update_self]
      exact h.init.2
    · rw [hother q hqi, (h.children q hqi (Nat.le_of_lt hq)).2.1, cycleHeat, if_neg]
      exact fun h0 => hqi (Fin.ext (Nat.le_zero.mp h0))
  · rw [hother 5 h5]
    exact (h.children 5 h5 (by decide)).2.1
  · rw [hother 5 h5]
    exact (h.children 5 h5 (by decide)).2.2

theorem cycle_reachable (k : ℕ) : ∃ s : Kernel 1, (kernelMachine 1).Reachable s ∧ s.Cycle k := by
  induction k with
  | zero =>
    obtain ⟨s, hreach, h⟩ := forked_reachable 5 (by decide)
    obtain ⟨s', hlead, h'⟩ := h.cycle
    exact ⟨s', .leads hreach hlead, h'⟩
  | succ k ih =>
    obtain ⟨s, hreach, h⟩ := ih
    obtain ⟨s', hlead, h'⟩ := h.next
    exact ⟨s', .leads hreach hlead, h'⟩

end Kernel

/-- In the run that starves slot 5, at the dispatch of slot 1 after 300 rounds. -/
theorem gate_rejects_at_most_starved : ∃ s : Kernel 1, (kernelMachine 1).Reachable s ∧
    (s.cpu 0).pc = .step5 ∧ (s.cpu 0).loc.chosen = some 1 ∧
      (s.mem.proc 5).waitingTick = 301 ∧ s.mem.Beats 1 5 := by
  obtain ⟨s₀, hreach, h⟩ := cycle_reachable 300
  obtain ⟨s, hlead, -, ⟨-, hpc, -, hchosen⟩, hproc, -⟩ :=
    spins_chose h.calm h.top (by rw [h.temp]; decide) h.pick
  have hr : (s₀.mem.proc 5).decay.state = .runnable := by
    rw [Proc.decay_state, h.state]
    rfl
  have hturn : some (turn 300) ≠ some (5 : Slot) := by decide
  have hwait : (s.mem.proc 5).waitingTick = 301 := by
    simp only [hproc, Mem.aged, Mem.decayed, if_pos (And.intro hr hturn), Proc.decay_waitingTick,
      h.waited]
    rfl
  have hstate : (s.mem.proc 5).state = .runnable := by
    rw [hproc, Mem.aged_state]
    exact hr
  have hreach' : (kernelMachine 1).Reachable s := .leads hreach hlead.leads
  exact ⟨s, hreach', hpc, hchosen, hwait, (gate_rejects_at_most hreach').2 1 5 hpc hchosen (by decide)
    hstate (by rw [hwait]; decide)⟩

/-- No bound holds for `waiting_tick` : init and its first four children take turns, and the
fifth child waits. -/
theorem waitingTick_unbounded : ¬ ∃ B : Int, ∀ s : Kernel 1, (kernelMachine 1).Reachable s →
    ∀ p, (s.mem.proc p).waitingTick ≤ B := by
  rintro ⟨B, hB⟩
  obtain ⟨s, hreach, h⟩ := cycle_reachable (B.toNat + 1)
  have := hB s hreach 5
  rw [h.waited] at this
  omega

end Xv6
