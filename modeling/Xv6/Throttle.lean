import Xv6.CpuSteps
import Xv6.Dispatch

/-!
# The hard throttle on several CPUs

STEP 2 lets a round go on when `cpu_temp` is below `THROTTLE_TEMP`, and STEP 5 dispatches the
process the round chose without a second look. Between the two the other CPUs may raise `cpu_temp`,
by a dispatch of their own or in clockintr, so a process may be dispatched above the limit
(`dispatch_at_throttle`, with two CPUs).

What keeps the throttle is that no CPU brings `cpu_temp` to the limit while another is between
its STEP 2 and its STEP 5 (`Kernel.Overheats`). In the runs where none does, every dispatch is
below the limit (`dispatch_below_throttle`); with one CPU those are all runs.
-/

namespace Xv6

open Function (update_self update_of_ne)

namespace Kernel

variable {n : ℕ}

/-- The heat that the step passes to `update_cpu_temp`, where it passes one : a dispatch, or
clockintr in a running process. -/
def heats (s : Kernel n) (c : Fin n) (a : KAct) : Option Int :=
  match a, (s.cpu c).intr, (s.cpu c).proc with
  | .sched, none, none =>
    if (s.cpu c).pc = .step5 then
      (s.cpu c).loc.chosen.bind fun p =>
        if (s.mem.proc p).state = .runnable then some (s.mem.proc p).heated else none
    else none
  | .intr, some (.temp _), some _ => if s.active c then some 1 else none
  | _, _, _ => none

/-- The step brings `cpu_temp` to the limit while another CPU is past its STEP 2. -/
def Overheats (s : Kernel n) (c : Fin n) (a : KAct) : Prop :=
  (∃ d, d ≠ c ∧ (s.cpu d).pc.chooses = true) ∧
    ∃ h, s.heats c a = some h ∧ THROTTLE_TEMP ≤ updateCpuTemp s.mem.cpuTemp h

/-- While a CPU is past its STEP 2, the temperature is below the limit. -/
structure Cool (s : Kernel n) : Prop where
  temp : ∀ d, (s.cpu d).pc.chooses = true → s.mem.cpuTemp < THROTTLE_TEMP
  busy : ∀ d p, (s.cpu d).proc = some p → (s.cpu d).pc = .swtch

theorem boot_cool (n : ℕ) : (boot n).Cool :=
  ⟨fun _ h => (by cases h), fun _ _ h => (by cases h)⟩

theorem updateCpuTemp_zero_lt {t : Int} (h : t < THROTTLE_TEMP) :
    updateCpuTemp t 0 < THROTTLE_TEMP := by
  simp only [updateCpuTemp, THROTTLE_TEMP] at h ⊢
  split_ifs <;> omega

variable {s s' : Kernel n} {c : Fin n} {a : KAct}

/-- Only CPU `c` changes; it is past its STEP 2 afterwards only if the temperature is below
the limit, and the temperature gets to the limit only when no other CPU is. -/
theorem Cool.of_cpu {x : Cpu} (h : s.Cool) (hcpu : s'.cpu = Function.update s.cpu c x)
    (hself : x.pc.chooses = true → s'.mem.cpuTemp < THROTTLE_TEMP)
    (hother : (∃ d, d ≠ c ∧ (s.cpu d).pc.chooses = true) → s.mem.cpuTemp < THROTTLE_TEMP →
      s'.mem.cpuTemp < THROTTLE_TEMP)
    (hbusy : ∀ p, x.proc = some p → x.pc = .swtch) : s'.Cool := by
  refine ⟨fun d hd => ?_, fun d p hd => ?_⟩
  · rw [hcpu] at hd
    by_cases hdc : d = c
    · rw [hdc, update_self] at hd
      exact hself hd
    · rw [update_of_ne hdc] at hd
      exact hother ⟨d, hdc, hd⟩ (h.temp d hd)
  · rw [hcpu] at hd ⊢
    by_cases hdc : d = c
    · rw [hdc, update_self] at hd ⊢
      exact hbusy p hd
    · rw [update_of_ne hdc] at hd ⊢
      exact h.busy d p hd

theorem Cool.step (h : s.Cool) (hplaced : s.Placed) (hC : ¬ s.Overheats c a)
    (hs : s.step c a = some s') : s'.Cool := by
  cases step_turned (hplaced.alive c) hs with
  | thread p hrun hintr hcpu htemp hself hother =>
    exact ⟨fun d hd => by rw [htemp]; rw [hcpu] at hd; exact h.temp d hd,
      fun d p hd => by rw [hcpu] at hd ⊢; exact h.busy d p hd⟩
  | leave p hrun hcpu htemp hself hother =>
    exact h.of_cpu hcpu (fun hd => by cases hd) (fun _ => by rw [htemp]; exact id)
      fun _ hd => by cases hd
  | sched m l pc ha hidle hintr hstep hpc hcpu hmem hthread =>
    refine h.of_cpu hcpu (fun hd => ?_) (fun _ hlow => ?_) fun q hq => ?_
    · rw [hmem]
      dsimp only at hd
      obtain ⟨ht, hch, -⟩ | ⟨-, -, rfl, -⟩ | ⟨-, hlow, -, ht⟩ | ⟨-, rfl, -⟩ :=
        schedStep_temp hstep hpc
      · rw [ht]
        exact h.temp c (hch ▸ hd)
      · cases hd
      · rwa [ht]
      · cases hd
    · rw [hmem]
      have hcold := updateCpuTemp_zero_lt hlow
      obtain ⟨ht, -⟩ | ⟨-, -, -, ht⟩ | ⟨-, -, -, ht⟩ | ⟨-, -, ht | ht⟩ := schedStep_temp hstep hpc <;>
        rwa [ht]
    · rw [hidle] at hq
      cases hq
  | dispatch p ha hidle hintr hpc hchosen hr hcpu htemp hthread =>
    refine h.of_cpu hcpu (fun hd => by cases hd) (fun hother _ => ?_) fun _ _ => rfl
    rw [htemp]
    by_contra hhot
    refine hC ⟨hother, _, ?_, Int.not_lt.mp hhot⟩
    simp [heats, ha, hintr, hidle, hpc, hchosen, hr]
  | take user i ha hintr hok hi hcpu htemp hthread =>
    exact h.of_cpu hcpu (fun hd => by rw [htemp]; exact h.temp c hd)
      (fun _ => by rw [htemp]; exact id) fun p hp => h.busy c p hp
  | handle i i' ha hintr hcpu htemp hlate hthread =>
    exact h.of_cpu hcpu (fun hd => by rw [htemp]; exact h.temp c hd)
      (fun _ => by rw [htemp]; exact id) fun p hp => h.busy c p hp
  | heat user ha hintr hcpu htemp hthread =>
    refine h.of_cpu hcpu (fun hd => ?_) (fun hother hlow => ?_) fun p hp => h.busy c p hp
    · -- the CPU is in its scheduler, so the tick cools
      have hidle : (s.cpu c).proc = none := by
        cases hp : (s.cpu c).proc with
        | none => rfl
        | some p =>
          rw [h.busy c p hp] at hd
          cases hd
      rw [htemp]
      simp only [active, hidle, Bool.false_eq_true, if_false]
      exact updateCpuTemp_zero_lt (h.temp c hd)
    · rw [htemp]
      by_cases hact : s.active c = true
      · rw [if_pos hact]
        by_contra hhot
        refine hC ⟨hother, 1, ?_, Int.not_lt.mp hhot⟩
        have hbusy : ∃ p, (s.cpu c).proc = some p := by
          cases hp : (s.cpu c).proc with
          | none => simp [active, hp] at hact
          | some p => exact ⟨p, rfl⟩
        obtain ⟨p, hp⟩ := hbusy
        simp [heats, ha, hintr, hp, hact]
      · rw [if_neg hact]
        exact updateCpuTemp_zero_lt hlow

theorem not_overheats_one {s : Kernel 1} {c : Fin 1} {a : KAct} : ¬ s.Overheats c a := by
  rintro ⟨⟨d, hd, -⟩, -⟩
  exact hd (Subsingleton.elim d c)

end Kernel

open Kernel

/-- In the runs where no CPU brings the temperature to the limit while another is past its
STEP 2, a process is dispatched only below the limit. -/
theorem dispatch_below_throttle {n : ℕ} {s : Kernel n}
    (h : (kernelMachine n).ReachWhen (fun s a => ¬ s.Overheats a.1 a.2) s) :
    ∀ c a s' p, s.step c a = some s' → (s.mem.proc p).state = .runnable →
      (s'.mem.proc p).state = .running → s.mem.cpuTemp < THROTTLE_TEMP := by
  intro c a s' p hs hr hrun
  have hcool : s.Cool := h.invariant (I := Cool) (fun _ h0 => h0 ▸ boot_cool n)
    fun _ _ _ hreach hcool hC hs => hcool.step (placed_of_reachWhen hreach) hC hs
  obtain hrun' | ⟨-, hpc, -⟩ := runnable_of_runs (placed_of_reachWhen h) hs hrun
  · rw [hr] at hrun'
    cases hrun'
  · exact hcool.temp c (by rw [hpc]; rfl)

/-- Init's first dispatch, on one CPU, at temperature 25. -/
theorem dispatch_below_throttle_init : ∃ s s' : Kernel 1, (kernelMachine 1).Reachable s ∧
    s.step 0 .sched = some s' ∧ (s.mem.proc initproc).state = .runnable ∧
      (s'.mem.proc initproc).state = .running ∧ s.mem.cpuTemp < THROTTLE_TEMP := by
  obtain ⟨s, hlead, hcalm, hchose, hproc, -⟩ := spins_chose (boot_calm 1) (boot_atTop 0)
    (show (25 : Int) < THROTTLE_TEMP by decide) (boot_pick 1)
  have hr : (s.mem.proc initproc).state = .runnable := by
    rw [hproc]
    rfl
  obtain ⟨s', hs, -, -, hproc', -⟩ := step_dispatch hcalm hchose hr
  have hrun : (s'.mem.proc initproc).state = .running := by
    rw [hproc', Function.update_self]
  have hreach : (kernelMachine 1).Reachable s := .leads (.init rfl) hlead.leads
  exact ⟨s, s', hreach, hs, hr, hrun, dispatch_below_throttle
    (hreach.mono fun _ _ _ => not_overheats_one) 0 .sched s' initproc hs hr hrun⟩

/-! ## A run with a dispatch above the limit -/

namespace Kernel

variable {n : ℕ} {s : Kernel n} {c : Fin n}

/-- Init is the only process, in that state and with that heat. -/
def Alone (s : Kernel n) (state : ProcState) (heat : Int) : Prop :=
  (s.mem.proc initproc).state = state ∧ (s.mem.proc initproc).heat = heat ∧
    ∀ q, q ≠ initproc → (s.mem.proc q).state = .unused

/-- The heat of a process that was idle for one round and is dispatched. -/
def reheat (heat : Int) : Int :=
  ({ Proc.zero with state := .runnable, heat := heat }.decay).heated

theorem Alone.pick {heat : Int} (h : s.Alone .runnable heat) :
    s.mem.decayed.pick = some initproc := by
  refine Mem.pick_of_sole (by simp only [Mem.decayed, Proc.decay_state, h.1]) fun q hq => ?_
  by_contra hne
  simp only [Mem.decayed, Proc.decay_state, h.2.2 q hne] at hq
  cases hq

/-- Init alone gets the CPU again. -/
theorem Alone.dispatch {heat : Int} (h : s.Alone .runnable heat) (hcalm : s.Calm) (htop : s.AtTop c)
    (htemp : s.mem.cpuTemp < THROTTLE_TEMP) :
    ∃ s', (kernelMachine n).Leads s s' ∧ s'.Calm ∧ s'.Runs c initproc ∧
      s'.Alone .running (reheat heat) ∧
      s'.mem.cpuTemp = updateCpuTemp s.mem.cpuTemp (reheat heat) ∧
      ∀ d, d ≠ c → s'.cpu d = s.cpu d := by
  obtain ⟨s', hlead, hcalm', hruns, hproc, htemp', -, hcpu⟩ := spins_dispatch hcalm htop htemp h.pick
  have hheat : (s.mem.proc initproc).decay.heated = reheat heat := by
    simp only [reheat, Proc.decay, h.1, h.2.1]
    split_ifs <;> simp [Proc.heated, h.2.1]
  rw [hheat] at htemp'
  refine ⟨s', hlead.leads, hcalm', hruns, ⟨?_, ?_, fun q hq => ?_⟩, htemp', hcpu⟩
  · rw [hproc, Mem.dispatched, update_self]
  · rw [hproc, Mem.dispatched, update_self]
    exact hheat
  · rw [hproc, Mem.dispatched, update_of_ne hq, Mem.aged_state]
    simp only [Mem.decayed, Proc.decay_state, h.2.2 q hq]

/-- Heat and temperature after one more quantum that ends in a tick. -/
def quantum (x : Int × Int) : Int × Int :=
  (reheat x.1, updateCpuTemp (updateCpuTemp x.2 (reheat x.1)) 1)

/-- A quantum of init alone. -/
theorem Alone.quantum {x : Int × Int} (h : s.Alone .runnable x.1) (hcalm : s.Calm)
    (htop : s.AtTop c) (htemp : s.mem.cpuTemp = x.2) (hlow : x.2 < THROTTLE_TEMP) :
    ∃ s', (kernelMachine n).Leads s s' ∧ s'.Calm ∧ s'.AtTop c ∧
      s'.Alone .runnable (quantum x).1 ∧ s'.mem.cpuTemp = (quantum x).2 ∧
      ∀ d, d ≠ c → s'.cpu d = s.cpu d := by
  obtain ⟨s₁, hlead₁, hcalm₁, hruns₁, halone₁, htemp₁, hcpu₁⟩ :=
    h.dispatch hcalm htop (htemp ▸ hlow)
  obtain ⟨s₂, hlead₂, hcalm₂, hcpu₂, hproc₂, htemp₂, -⟩ := leads_tick hcalm₁ hruns₁ halone₁.1
  obtain ⟨s₃, hlead₃, hcalm₃, htop₃, hproc₃, htemp₃, -, hcpu₃⟩ := leads_yield (c := c) (p := initproc)
    hcalm₂ (by rw [hcpu₂, update_self]; exact hruns₁.1) (by rw [hcpu₂, update_self])
  refine ⟨s₃, hlead₁.trans (hlead₂.trans hlead₃), hcalm₃, htop₃, ⟨?_, ?_, fun q hq => ?_⟩, ?_,
    fun d hd => ?_⟩
  · rw [hproc₃, update_self]
  · rw [hproc₃, update_self, hproc₂]
    exact halone₁.2.1
  · rw [hproc₃, update_of_ne hq, hproc₂]
    exact halone₁.2.2 q hq
  · rw [htemp₃, htemp₂, htemp₁, htemp]
    rfl
  · rw [hcpu₃ d hd, hcpu₂, update_of_ne hd, hcpu₁ d hd]

/-- Quanta of init alone, as long as the throttle lets it run. -/
theorem Alone.quanta {x : Int × Int} (k : ℕ)
    (hlow : ∀ i < k, (Kernel.quantum^[i] x).2 < THROTTLE_TEMP) (h : s.Alone .runnable x.1)
    (hcalm : s.Calm) (htop : s.AtTop c) (htemp : s.mem.cpuTemp = x.2) :
    ∃ s', (kernelMachine n).Leads s s' ∧ s'.Calm ∧ s'.AtTop c ∧
      s'.Alone .runnable (Kernel.quantum^[k] x).1 ∧ s'.mem.cpuTemp = (Kernel.quantum^[k] x).2 ∧
      ∀ d, d ≠ c → s'.cpu d = s.cpu d := by
  induction k with
  | zero => exact ⟨s, .refl, hcalm, htop, h, htemp, fun _ _ => rfl⟩
  | succ k ih =>
    obtain ⟨s₁, hlead₁, hcalm₁, htop₁, h₁, htemp₁, hcpu₁⟩ := ih fun i hi => hlow i (by omega)
    obtain ⟨s₂, hlead₂, hcalm₂, htop₂, h₂, htemp₂, hcpu₂⟩ :=
      h₁.quantum hcalm₁ htop₁ htemp₁ (hlow k (by omega))
    rw [← Function.iterate_succ_apply' Kernel.quantum k x] at h₂ htemp₂
    exact ⟨s₂, hlead₁.trans hlead₂, hcalm₂, htop₂, h₂, htemp₂,
      fun d hd => (hcpu₂ d hd).trans (hcpu₁ d hd)⟩

/-- Init heats the first CPU up to 89 and forks, and the second CPU is about to begin a round. -/
theorem hot_fork_reachable : ∃ s : Kernel 2, (kernelMachine 2).Reachable s ∧ s.Calm ∧
    s.Runs 0 initproc ∧ s.AtTop 1 ∧ s.mem.cpuTemp = 89 ∧
      (s.mem.proc initproc).state = .running ∧ ∀ q, (s.mem.proc q).state = .runnable ↔ q = 1 := by
  have hboot : (boot 2).Alone .runnable 0 := ⟨rfl, rfl, fun q hq => by rw [boot_state hq]; rfl⟩
  obtain ⟨s₁, hlead₁, hcalm₁, htop₁, h₁, htemp₁, hcpu₁⟩ :=
    Alone.quanta (c := 0) (x := (0, 25)) 16 (by decide) hboot (boot_calm 2) (boot_atTop 0) rfl
  have hx : Kernel.quantum^[16] (0, 25) = (100, 85) := by decide
  rw [hx] at h₁ htemp₁
  obtain ⟨s₂, hlead₂, hcalm₂, hruns₂, h₂, htemp₂, hcpu₂⟩ :=
    h₁.dispatch hcalm₁ htop₁ (by rw [htemp₁]; decide)
  have hfirst : ∀ y : Slot, y < 1 → y = initproc := fun y hy => Fin.ext (Nat.lt_one_iff.mp hy)
  have hinit : (s₂.mem.proc initproc).state ≠ .unused := by
    rw [h₂.1]
    simp
  obtain ⟨s, hlead, hcalm, hcpu, hproc, htemp, -⟩ := leads_fork (x := 1) hcalm₂ hruns₂
    (h₂.2.2 1 (by decide)) hinit fun y hy => hfirst y hy ▸ hinit
  refine ⟨s, .leads (.init rfl) (hlead₁.trans (hlead₂.trans hlead)), hcalm, ?_, ?_, ?_, ?_, ?_⟩
  · rw [Runs, hcpu]
    exact hruns₂
  · rw [AtTop, hcpu, hcpu₂ 1 (by decide), hcpu₁ 1 (by decide)]
    exact boot_atTop 1
  · rw [htemp, htemp₂, htemp₁]
    decide
  · rw [hproc, update_of_ne (by decide)]
    exact h₂.1
  · intro q
    rw [hproc]
    by_cases hq : q = 1
    · simp [hq, child]
    · rw [update_of_ne hq]
      by_cases hqi : q = initproc
      · subst hqi
        simp [h₂.1, hq]
      · simp [h₂.2.2 q hqi, hq]

end Kernel

/-- With two CPUs a process is dispatched at the limit. The second CPU passes its STEP 2 at 89 and
chooses the child of init; a timer interrupt on the first CPU brings the temperature to 90; and the
second CPU dispatches. -/
theorem dispatch_at_throttle : ∃ s s' : Kernel 2, (kernelMachine 2).Reachable s ∧
    s.step 1 .sched = some s' ∧ (s.mem.proc 1).state = .runnable ∧
      (s'.mem.proc 1).state = .running ∧ s.mem.cpuTemp = THROTTLE_TEMP := by
  obtain ⟨s₁, hreach, hcalm₁, hruns₁, htop₁, htemp₁, hinit₁, hstate₁⟩ := hot_fork_reachable
  have hpick : s₁.mem.decayed.pick = some 1 := by
    refine Mem.pick_of_sole ?_ fun q hq => ?_
    · simpa only [Mem.decayed, Proc.decay_state] using (hstate₁ 1).mpr rfl
    · simp only [Mem.decayed, Proc.decay_state] at hq
      exact (hstate₁ q).mp hq
  obtain ⟨s₂, hlead₂, hcalm₂, hchose₂, hproc₂, htemp₂, -, hcpu₂⟩ :=
    spins_chose hcalm₁ htop₁ (by rw [htemp₁]; decide) hpick
  have hruns₂ : s₂.Runs 0 initproc := by
    rw [Runs, hcpu₂ 0 (by decide)]
    exact hruns₁
  have hstate₂ : ∀ q, (s₂.mem.proc q).state = (s₁.mem.proc q).state := by
    intro q
    rw [hproc₂, Mem.aged_state]
    simp only [Mem.decayed, Proc.decay_state]
  obtain ⟨s₃, hlead₃, hcalm₃, hcpu₃, hproc₃, htemp₃, -⟩ :=
    leads_tick hcalm₂ hruns₂ ((hstate₂ _).trans hinit₁)
  have hchose₃ : s₃.Chose 1 1 := by
    rw [Chose, hcpu₃, Function.update_of_ne (by decide)]
    exact hchose₂
  have hr₃ : (s₃.mem.proc 1).state = .runnable := by
    rw [hproc₃, hstate₂]
    exact (hstate₁ 1).mpr rfl
  obtain ⟨s₄, hs₄, -, -, hproc₄, -⟩ := step_dispatch hcalm₃ hchose₃ hr₃
  refine ⟨s₃, s₄, .leads hreach (hlead₂.leads.trans hlead₃), hs₄, hr₃, ?_, ?_⟩
  · rw [hproc₄, Function.update_self]
  · rw [htemp₃, htemp₂, htemp₁]
    decide

end Xv6
