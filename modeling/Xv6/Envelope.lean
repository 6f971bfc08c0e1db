import Xv6.CpuSteps
import Xv6.Dispatch

/-!
# The thermal envelope of one CPU

The bounds that the scheduler keeps over whole runs. The heat of every process stays within
`0` and `MAX_HEAT`, and a process that runs or sleeps has not waited (`Kernel.Tempered`, for any
number of CPUs). On one CPU the temperature stays within 20 and 94 (`Kernel.Envelope`) : a round goes
past STEP 2 below 90, a dispatch adds at most 4, and the quantum that follows is ended by the
first timer interrupt, which adds 1. A round that is throttled takes 2 away, so from 94 at
most three in a row are.
-/

namespace Xv6

/-! ## Heat and waiting -/

/-- The heat is in range, and only a RUNNABLE process has waited. -/
structure Proc.Tempered (q : Proc) : Prop where
  nonneg : 0 ≤ q.heat
  le : q.heat ≤ MAX_HEAT
  free : q.state = .unused → q.heat = 0
  waited : q.state = .running ∨ q.state = .sleeping → q.waitingTick = 0

/-- The fields that `Proc.Tempered` reads. -/
theorem Proc.Tempered.of_eq {q q' : Proc} (h : q.Tempered) (hheat : q'.heat = q.heat)
    (hwait : q'.waitingTick = q.waitingTick) (hfree : q'.state = .unused → q.state = .unused)
    (hrun : q'.state = .running ∨ q'.state = .sleeping →
      q.state = .running ∨ q.state = .sleeping) : q'.Tempered := by
  refine ⟨hheat ▸ h.nonneg, hheat ▸ h.le, fun hq => ?_, fun hq => ?_⟩
  · rw [hheat]
    exact h.free (hfree hq)
  · rw [hwait]
    exact h.waited (hrun hq)

theorem Proc.Tempered.heated {q : Proc} (h : q.Tempered) : 0 < q.heated ∧ q.heated ≤ MAX_HEAT := by
  have := h.nonneg
  unfold Proc.heated
  simp only [HEAT_INCREMENT, MAX_HEAT] at *
  split_ifs <;> omega

theorem Proc.Tempered.decay {q : Proc} (h : q.Tempered) : q.decay.Tempered := by
  unfold Proc.decay
  split_ifs with hidle hneg
  · exact ⟨Int.le_refl 0, show (0 : Int) ≤ MAX_HEAT by decide, fun _ => rfl, h.waited⟩
  · refine ⟨Int.not_lt.mp hneg, (Int.sub_le_self _ (by decide)).trans h.le, fun hq => ?_, h.waited⟩
    obtain ⟨hr | hs, -⟩ := hidle
    · exact absurd (hr.symm.trans hq) (by simp)
    · exact absurd (hs.symm.trans hq) (by simp)
  · exact h

theorem Proc.freeproc_tempered (q : Proc) : q.freeproc.Tempered :=
  ⟨Int.le_refl 0, show (0 : Int) ≤ MAX_HEAT by decide, fun _ => rfl,
    fun h => by obtain h | h := h <;> cases h⟩

theorem SlotStep.tempered {q q' : Proc} (h : SlotStep q q') (hq : q.Tempered) : q'.Tempered := by
  cases h with
  | refl => exact hq
  | decay => exact hq.decay
  | waits hr => exact ⟨hq.nonneg, hq.le, hq.free, fun h => by simp [hr] at h⟩
  | wakeup chan =>
    unfold Proc.wakeup
    split_ifs
    · exact hq.of_eq rfl rfl (by simp) (by simp)
    · exact hq
  | adopt r _ => exact hq.of_eq rfl rfl id id

theorem OwnStep.tempered {q q' : Proc} (h : OwnStep q q') (hq : q.Tempered) : q'.Tempered := by
  cases h <;> exact hq.of_eq rfl rfl id id

theorem LeaveStep.tempered {q q' : Proc} (h : LeaveStep q q') (hq : q.Tempered)
    (hrun : q.state = .running) : q'.Tempered := by
  cases h <;> exact hq.of_eq rfl rfl (fun h => by cases h) fun _ => Or.inl hrun

namespace Kernel

variable {n : ℕ}

/-- Every slot is tempered. -/
def Tempered (s : Kernel n) : Prop :=
  ∀ x, (s.mem.proc x).Tempered

theorem boot_tempered (n : ℕ) : (boot n).Tempered := by
  have hzero : Proc.zero.Tempered := Proc.freeproc_tempered Proc.zero
  intro x
  by_cases hx : x = initproc
  · subst hx
    exact hzero.of_eq rfl rfl (fun h => by cases h) fun h => by obtain h | h := h <;> cases h
  · rwa [boot_state hx]

variable {s s' : Kernel n} {c : Fin n} {a : KAct}

theorem Tempered.step (h : s.Tempered) (hplaced : s.Placed) (hs : s.step c a = some s') :
    s'.Tempered := by
  cases step_moved hs with
  | slot x q hproc hq hquiet => exact slots_of_update h hproc (hq.tempered (h x))
  | own p q hrun hproc hq hquiet => exact slots_of_update h hproc (hq.tempered (h p))
  | kill p x pid todo ok ha hrun hpc hpid hproc hret hquiet =>
    refine slots_of_update h hproc ((h x).of_eq rfl rfl ?_ ?_) <;>
      simp only [Proc.kkill] <;> split_ifs with hx <;> simp [hx]
  | alloc p x todo ok sz name ha hrun hpc hx hproc hcpu hforks hp =>
    exact slots_of_update h hproc ⟨Int.le_refl 0, show (0 : Int) ≤ MAX_HEAT by decide, fun _ => rfl,
      fun _ => rfl⟩
  | allocFail p x todo ok ha hrun hpc hx hproc hquiet => exact slots_of_update h hproc (Proc.freeproc_tempered _)
  | parent p np hforks hproc hquiet =>
    exact slots_of_update h hproc ((h np).of_eq rfl rfl id id)
  | start p np hforks hproc hdone hquiet =>
    exact slots_of_update h hproc ((h np).of_eq rfl rfl (fun h => by cases h)
      fun h => by obtain h | h := h <;> cases h)
  | reap x hx hproc hquiet => exact slots_of_update h hproc (Proc.freeproc_tempered _)
  | leave p q hrun hproc hq hcpu hforks =>
    exact slots_of_update h hproc (hq.tempered (h p) ((hplaced.running p).mpr ⟨c, hrun⟩))
  | dispatch p q hidle hpc hchosen hproc hq hcpu hforks =>
    obtain ⟨-, chan, rfl⟩ := hq
    obtain ⟨hpos, hle⟩ := (h p).heated
    exact slots_of_update h hproc ⟨Int.le_of_lt hpos, hle, fun h => (by cases h), fun _ => rfl⟩

/-- The heat of every process is in range in every state of every run. -/
theorem tempered_of_reachWhen {C : Kernel n → Fin n × KAct → Prop}
    (h : (kernelMachine n).ReachWhen C s) : s.Tempered :=
  h.invariant (I := Tempered) (fun _ h0 => h0 ▸ boot_tempered n)
    fun _ _ _ hr ht _ hs => ht.step (placed_of_reachWhen hr) hs

end Kernel

/-! ## The temperature -/

theorem le_updateCpuTemp (t h : Int) : 20 ≤ updateCpuTemp t h := by
  simp only [updateCpuTemp]
  split_ifs <;> omega

theorem updateCpuTemp_zero_le {t : Int} (ht : 20 ≤ t) : updateCpuTemp t 0 ≤ t := by
  simp only [updateCpuTemp]
  split_ifs <;> omega

/-- A throttled round takes 2 away. -/
theorem updateCpuTemp_throttled {t : Int} (ht : THROTTLE_TEMP ≤ t) :
    updateCpuTemp t 0 ≤ t - 2 := by
  simp only [updateCpuTemp, THROTTLE_TEMP] at *
  split_ifs <;> omega

/-- A process adds from 1 to 4. -/
theorem updateCpuTemp_le {t h : Int} (ht : 20 ≤ t) (hh : h ≤ MAX_HEAT) (h0 : 0 < h) :
    updateCpuTemp t h ≤ t + (1 + h / 30) := by
  simp only [updateCpuTemp, MAX_HEAT] at *
  split_ifs <;> omega

/-- The state of a thread's interrupts : they are off only in kexit. -/
def Thread.Exits (t : Thread) : Prop :=
  t.intena = false → t.pc.exits = true

theorem Thread.Continues.exits {t t' : Thread} (h : t.Continues t') (ht : t.Exits) : t'.Exits := by
  intro hoff
  obtain ⟨hsame, hex⟩ | ⟨hex, -⟩ := h
  · exact hex (ht (hsame ▸ hoff))
  · exact hex

/-- A thread with its interrupts off keeps them off. -/
theorem Thread.Continues.off {t t' : Thread} (h : t.Continues t') (ht : t.Exits)
    (hoff : t.intena = false) : t'.intena = false := by
  obtain ⟨hsame, -⟩ | ⟨-, hoff' | huser⟩ := h
  · rw [hsame, hoff]
  · exact hoff'
  · have := ht hoff
    rw [huser] at this
    cases this

namespace Kernel

/-- The number of rounds throttled in a row : STEP 2 counts them, and a round that goes past it
starts anew. -/
def throttledRounds (k : ℕ) (s : Kernel 1) (a : Fin 1 × KAct) : ℕ :=
  if a.2 = .sched ∧ (s.cpu a.1).pc = .step2 then
    if THROTTLE_TEMP ≤ s.mem.cpuTemp then k + 1 else 0
  else k

/-- The temperature of the one CPU after `k` throttled rounds in a row : by where the scheduler
is, or whether the process it runs can still see a timer interrupt. -/
structure Envelope (s : Kernel 1) (k : ℕ) : Prop where
  exits : ∀ q, (s.thread q).Exits
  low : 20 ≤ s.mem.cpuTemp
  few : k ≤ 3
  idle : (s.cpu 0).proc = none → (s.cpu 0).pc.chooses = false → s.mem.cpuTemp + 2 * k ≤ 94
  chooses : (s.cpu 0).pc.chooses = true → s.mem.cpuTemp ≤ 89 ∧ k = 0
  busy : ∀ p, (s.cpu 0).proc = some p → (s.cpu 0).pc = .swtch ∧ k = 0 ∧
    s.mem.cpuTemp ≤ 94 ∧ ((s.thread p).spent (s.cpu 0).intr = false → s.mem.cpuTemp ≤ 93)

theorem boot_envelope : (boot 1).Envelope 0 := by
  refine ⟨fun q h => (by cases h), ?_, Nat.zero_le 3, fun _ _ => ?_, fun h => (by cases h),
    fun p h => (by cases h)⟩
  · exact show (20 : Int) ≤ 25 by decide
  · exact show (25 : Int) + 2 * 0 ≤ 94 by decide

variable {s s' : Kernel 1} {k : ℕ}

theorem throttledRounds_of_ne {a : KAct} (h : a ≠ .sched ∨ (s.cpu 0).pc ≠ .step2) :
    throttledRounds k s (0, a) = k := by
  unfold throttledRounds
  rw [if_neg]
  rintro ⟨ha, hpc⟩
  obtain h | h := h
  · exact h ha
  · exact h hpc

/-- The scheduler of an idle CPU has moved on. -/
theorem Envelope.of_sched {k' : ℕ} (h : s.Envelope k) {m : Mem} {l : Locals} {pc : SchedPc}
    (hidle : (s.cpu 0).proc = none)
    (hcpu : s'.cpu = Function.update s.cpu 0 { s.cpu 0 with loc := l, pc := pc })
    (htemp : s'.mem.cpuTemp = m.cpuTemp) (hthread : s'.thread = s.thread)
    (hlow : 20 ≤ m.cpuTemp) (hfew : k' ≤ 3) (hnot : pc.chooses = false → m.cpuTemp + 2 * k' ≤ 94)
    (hchooses : pc.chooses = true → m.cpuTemp ≤ 89 ∧ k' = 0) : s'.Envelope k' := by
  have hself : s'.cpu 0 = { s.cpu 0 with loc := l, pc := pc } := by
    rw [hcpu, Function.update_self]
  refine ⟨hthread ▸ h.exits, htemp ▸ hlow, hfew, fun _ => ?_, ?_, fun p hp => ?_⟩
  · rw [htemp, hself]
    exact hnot
  · rw [htemp, hself]
    exact hchooses
  · rw [hself, hidle] at hp
    cases hp

/-- A step of the scheduler other than a dispatch. -/
theorem Envelope.sched (h : s.Envelope k) {m : Mem} {l : Locals} {pc : SchedPc}
    (hidle : (s.cpu 0).proc = none)
    (hstep : schedStep s.mem (s.cpu 0).loc (s.cpu 0).pc = some (m, l, pc)) (hpc : pc ≠ .swtch)
    (hcpu : s'.cpu = Function.update s.cpu 0 { s.cpu 0 with loc := l, pc := pc })
    (htemp : s'.mem.cpuTemp = m.cpuTemp) (hthread : s'.thread = s.thread) :
    s'.Envelope (throttledRounds k s (0, .sched)) := by
  have hlow := h.low
  obtain ⟨ht, hch, hne⟩ | ⟨hs2, hhot, rfl, ht⟩ | ⟨hs2, hcool, hch, ht⟩ | ⟨hs5, rfl, ht⟩ :=
    schedStep_temp hstep hpc
  · -- the temperature and the part of the round stay
    rw [throttledRounds_of_ne (Or.inr hne)]
    refine h.of_sched hidle hcpu htemp hthread (ht ▸ hlow) h.few ?_ ?_
    · rw [ht, hch]
      exact h.idle hidle
    · rw [ht, hch]
      exact h.chooses
  · -- STEP 2 throttles
    have hold := h.idle hidle (by rw [hs2]; rfl)
    have hcold := updateCpuTemp_throttled hhot
    have hk : throttledRounds k s (0, .sched) = k + 1 := by
      simp only [throttledRounds, hs2, and_self, if_true, if_pos hhot]
    simp only [THROTTLE_TEMP] at hhot
    rw [hk]
    refine h.of_sched hidle hcpu htemp hthread ?_ (by omega) (fun _ => ?_) fun hch => by cases hch
    · rw [ht]
      exact le_updateCpuTemp _ _
    · rw [ht]
      push_cast
      omega
  · -- STEP 2 lets the round go on
    have hk : throttledRounds k s (0, .sched) = 0 := by
      simp only [throttledRounds, hs2, and_self, if_true, if_neg (Int.not_le.mpr hcool)]
    simp only [THROTTLE_TEMP] at hcool
    rw [hk]
    refine h.of_sched hidle hcpu htemp hthread (ht ▸ hlow) (Nat.zero_le 3) (fun hch' => ?_)
      fun _ => ?_
    · rw [hch] at hch'
      cases hch'
    · rw [ht]
      omega
  · -- STEP 5 finds nothing to run
    rw [throttledRounds_of_ne (Or.inr (by rw [hs5]; simp))]
    obtain ⟨hold, hk⟩ := h.chooses (by rw [hs5]; rfl)
    have hcold := updateCpuTemp_zero_le hlow
    have hge := le_updateCpuTemp s.mem.cpuTemp 0
    refine h.of_sched hidle hcpu htemp hthread (by omega) h.few (fun _ => ?_) fun hch => by cases hch
    omega

/-- A step in which the temperature, the place of the scheduler and the process stay. -/
theorem Envelope.of_same (h : s.Envelope k) (hexits : ∀ q, (s'.thread q).Exits)
    (htemp : s'.mem.cpuTemp = s.mem.cpuTemp) (hproc : (s'.cpu 0).proc = (s.cpu 0).proc)
    (hpc : (s'.cpu 0).pc = (s.cpu 0).pc)
    (hspent : ∀ p, (s.cpu 0).proc = some p → (s.thread p).spent (s.cpu 0).intr = true →
      (s'.thread p).spent (s'.cpu 0).intr = true) : s'.Envelope k := by
  refine ⟨hexits, htemp ▸ h.low, h.few, ?_, ?_, fun p hp => ?_⟩
  · rw [hproc, hpc, htemp]
    exact h.idle
  · rw [hpc, htemp]
    exact h.chooses
  · rw [hproc] at hp
    obtain ⟨hsw, hk, hle, hfresh⟩ := h.busy p hp
    rw [hpc, htemp]
    refine ⟨hsw, hk, hle, fun hsp => hfresh ?_⟩
    by_contra hold
    rw [hspent p hp (by simpa using hold)] at hsp
    cases hsp

theorem Envelope.leave (h : s.Envelope k) {p : Slot} (hrun : (s.cpu 0).proc = some p)
    (hcpu : s'.cpu 0 = { s.cpu 0 with proc := none, pc := .top, intr := none })
    (htemp : s'.mem.cpuTemp = s.mem.cpuTemp) (hexits : ∀ q, (s'.thread q).Exits) :
    s'.Envelope k := by
  obtain ⟨-, rfl, hle, -⟩ := h.busy p hrun
  refine ⟨hexits, htemp ▸ h.low, h.few, fun _ _ => ?_, fun hch => ?_, fun q hq => ?_⟩
  · rw [htemp]
    omega
  · rw [hcpu] at hch
    cases hch
  · rw [hcpu] at hq
    cases hq

theorem Envelope.dispatch (h : s.Envelope k) {p : Slot} (hheat : (s.mem.proc p).Tempered)
    (hpc : (s.cpu 0).pc = .step5)
    (hcpu : s'.cpu 0 = { s.cpu 0 with proc := some p, pc := .swtch })
    (htemp : s'.mem.cpuTemp = updateCpuTemp s.mem.cpuTemp (s.mem.proc p).heated)
    (hexits : ∀ q, (s'.thread q).Exits) : s'.Envelope k := by
  obtain ⟨hle, rfl⟩ := h.chooses (by rw [hpc]; rfl)
  obtain ⟨hpos, hmax⟩ := hheat.heated
  have hup := updateCpuTemp_le h.low hmax hpos
  have h93 : s'.mem.cpuTemp ≤ 93 := by
    rw [htemp]
    simp only [MAX_HEAT] at hmax
    omega
  refine ⟨hexits, ?_, h.few, fun hidle => ?_, fun hch => ?_, fun q _ => ?_⟩
  · rw [htemp]
    exact le_updateCpuTemp _ _
  · rw [hcpu] at hidle
    cases hidle
  · rw [hcpu] at hch
    cases hch
  · refine ⟨by rw [hcpu], rfl, by omega, fun _ => h93⟩

/-- clockintr : with a process on the CPU no further timer interrupt comes before it leaves. -/
theorem Envelope.heat (h : s.Envelope k) {user : Bool} (hintr : (s.cpu 0).intr = some (.temp user))
    (hcpu : s'.cpu 0 = { s.cpu 0 with
      intr := (s.cpu 0).proc.map fun _ => if user then .killed true else .yield })
    (htemp : s'.mem.cpuTemp = updateCpuTemp s.mem.cpuTemp (if s.active 0 then 1 else 0))
    (hthread : s'.thread = s.thread) : s'.Envelope k := by
  have hlow := h.low
  have hcold := updateCpuTemp_zero_le hlow
  have hwarm := updateCpuTemp_le (h := 1) hlow (by decide) (by decide)
  refine ⟨hthread ▸ h.exits, ?_, h.few, fun hidle hch => ?_, fun hch => ?_, fun p hp => ?_⟩
  · rw [htemp]
    exact le_updateCpuTemp _ _
  · rw [hcpu] at hidle hch
    have hact : s.active 0 = false := by
      simp only at hidle
      simp [active, hidle]
    have := h.idle hidle hch
    rw [htemp, hact]
    simp only [Bool.false_eq_true, if_false]
    omega
  · rw [hcpu] at hch
    obtain ⟨hle, hk⟩ := h.chooses hch
    have hidle : (s.cpu 0).proc = none := by
      cases hp : (s.cpu 0).proc with
      | none => rfl
      | some p =>
        rw [(h.busy p hp).1] at hch
        cases hch
    have hact : s.active 0 = false := by simp [active, hidle]
    rw [htemp, hact]
    simp only [Bool.false_eq_true, if_false]
    exact ⟨by omega, hk⟩
  · rw [hcpu] at hp
    obtain ⟨hsw, hk, -, hfresh⟩ := h.busy p hp
    have h93 := hfresh (by rw [hintr]; rfl)
    refine ⟨by rw [hcpu]; exact hsw, hk, ?_, fun hsp => ?_⟩
    · rw [htemp]
      split_ifs <;> omega
    · rw [hcpu] at hsp
      simp only at hp
      rw [hp] at hsp
      cases user <;> cases hsp

theorem Envelope.step {c : Fin 1} {a : KAct} (h : s.Envelope k) (hplaced : s.Placed)
    (htempered : s.Tempered) (hs : s.step c a = some s') :
    s'.Envelope (throttledRounds k s (c, a)) := by
  obtain rfl : c = 0 := Subsingleton.elim c 0
  have hbusy : ∀ p, (s.cpu 0).proc = some p → throttledRounds k s (0, a) = k := by
    intro p hp
    refine throttledRounds_of_ne (Or.inr ?_)
    rw [(h.busy p hp).1]
    simp
  cases step_turned (hplaced.alive 0) hs with
  | thread p hrun hintr hcpu htemp hself hother =>
    rw [hbusy p hrun]
    refine h.of_same (fun q => ?_) htemp (by rw [hcpu]) (by rw [hcpu]) fun q hq hsp => ?_
    · by_cases hq : q = p
      · exact hq ▸ hself.exits (h.exits p)
      · obtain heq | heq := hother q hq
        · exact heq ▸ h.exits q
        · rw [heq]
          intro hoff
          cases hoff
    · obtain rfl := Option.some.inj (hq.symm.trans hrun)
      rw [hcpu]
      rw [hintr] at hsp ⊢
      simp only [Thread.spent, Bool.not_eq_true'] at hsp ⊢
      exact hself.off (h.exits q) hsp
  | leave p hrun hcpu htemp hself hother =>
    rw [hbusy p hrun]
    refine h.leave hrun (by rw [hcpu, Function.update_self]) htemp fun q => ?_
    by_cases hq : q = p
    · exact hq ▸ hself.exits (h.exits p)
    · rw [hother q hq]
      exact h.exits q
  | sched m l pc ha hidle hintr hstep hpc hcpu hmem hthread =>
    subst ha
    exact h.sched hidle hstep hpc hcpu (by rw [hmem]) hthread
  | dispatch p ha hidle hintr hpc hchosen hr hcpu htemp hthread =>
    rw [throttledRounds_of_ne (Or.inr (by rw [hpc]; simp))]
    exact h.dispatch (htempered p) hpc (by rw [hcpu, Function.update_self]) htemp
      fun q => (hthread q).exits (h.exits q)
  | take user i ha hintr hok hi hcpu htemp hthread =>
    rw [throttledRounds_of_ne (Or.inl ha)]
    have hself : s'.cpu 0 = { s.cpu 0 with intr := some i } := by rw [hcpu, Function.update_self]
    refine h.of_same (hthread ▸ h.exits) htemp (by rw [hself]) (by rw [hself]) fun p hp hsp => ?_
    -- interrupts are on where one is taken
    rw [hintr] at hsp
    simp only [interruptible, hp, Bool.and_eq_true] at hok
    simp only [Thread.spent, Bool.not_eq_true'] at hsp
    rw [hsp] at hok
    cases hok.1.1
  | handle i i' ha hintr hcpu htemp hlate hthread =>
    rw [throttledRounds_of_ne (Or.inl (by rw [ha]; simp))]
    have hself : s'.cpu 0 = { s.cpu 0 with intr := i' } := by rw [hcpu, Function.update_self]
    refine h.of_same (fun q => (hthread q).exits (h.exits q)) htemp (by rw [hself]) (by rw [hself])
      fun p hp hsp => ?_
    rw [hintr] at hsp
    rw [hself]
    exact hlate p hp hsp
  | heat user ha hintr hcpu htemp hthread =>
    rw [throttledRounds_of_ne (Or.inl (by rw [ha]; simp))]
    exact h.heat hintr (by rw [hcpu, Function.update_self]) htemp hthread

/-- The envelope of the run so far. -/
theorem envelope_of_reachable
    (h : ((kernelMachine 1).observe 0 throttledRounds).Reachable (s, k)) : s.Envelope k := by
  refine h.invariant (I := fun x : Kernel 1 × ℕ => x.1.Envelope x.2) ?_ ?_
  · rintro ⟨s, k⟩ ⟨hs, hk⟩
    exact hs ▸ hk ▸ boot_envelope
  · rintro ⟨s, k⟩ ⟨c, a⟩ ⟨s', k'⟩ hreach henv - hstep
    obtain ⟨hs, hk⟩ := Machine.observe_step.mp hstep
    have hreach' := hreach.of_observe (C := fun _ _ => True)
    simp only at hs hk
    rw [hk]
    exact henv.step (placed_of_reachWhen hreach') (tempered_of_reachWhen hreach') hs

end Kernel

open Kernel

/-- On one CPU, in every state of every run : the heat of every process is within 0 and 100, and 0
in a free slot; a process that runs or sleeps has not waited; the temperature is within 20 and
94; and no more than three rounds in a row have been throttled. -/
theorem thermal_envelope {s : Kernel 1} (h : (kernelMachine 1).Reachable s) :
    (∀ p, 0 ≤ (s.mem.proc p).heat ∧ (s.mem.proc p).heat ≤ 100) ∧
    (∀ p, (s.mem.proc p).state = .unused → (s.mem.proc p).heat = 0) ∧
    (∀ p, (s.mem.proc p).state = .running ∨ (s.mem.proc p).state = .sleeping →
      (s.mem.proc p).waitingTick = 0) ∧
    20 ≤ s.mem.cpuTemp ∧ s.mem.cpuTemp ≤ 94 ∧
    ∀ k, ((kernelMachine 1).observe 0 throttledRounds).Reachable (s, k) → k ≤ 3 := by
  have htempered := tempered_of_reachWhen h
  obtain ⟨k, hk⟩ := h.observed 0 throttledRounds
  have henv := envelope_of_reachable hk
  refine ⟨fun p => ⟨(htempered p).nonneg, (htempered p).le⟩, fun p => (htempered p).free,
    fun p => (htempered p).waited, henv.low, ?_, fun k hk => (envelope_of_reachable hk).few⟩
  cases hp : (s.cpu 0).proc with
  | some p => exact (henv.busy p hp).2.2.1
  | none =>
    cases hch : (s.cpu 0).pc.chooses with
    | true =>
      have := (henv.chooses hch).1
      omega
    | false =>
      have := henv.idle hp hch
      omega

/-- Where init runs for the first time. -/
theorem thermal_envelope_init : ∃ s : Kernel 1, (kernelMachine 1).Reachable s ∧
    (s.mem.proc initproc).state = .running ∧ (s.mem.proc initproc).waitingTick = 0 ∧
      s.mem.cpuTemp = 26 ∧ s.mem.cpuTemp ≤ 94 := by
  obtain ⟨s, hreach, -, -, hproc, htemp, -⟩ := boot_runs (n := 1) 0
  have hrun : (s.mem.proc initproc).state = .running := by
    rw [hproc, Mem.dispatched, Function.update_self]
  obtain ⟨-, -, hwait, -, hle, -⟩ := thermal_envelope hreach
  exact ⟨s, hreach, hrun, hwait initproc (Or.inl hrun), htemp, hle⟩

end Xv6
