import Mathlib.Order.Fin.Basic
import Xv6.Round

/-!
# Runs in big steps

What a run of the kernel can do, in steps the size of a quantum : a round that ends in a dispatch
(`spins_dispatch`), a timer interrupt while a process runs (`leads_tick`) and the yield after it
(`leads_yield`), a timer interrupt at the top of the scheduler's loop (`leads_idleTick`), and a
fork (`leads_fork`). The states are those in which no process sleeps and none is inside a call
(`Kernel.Calm`); particular runs are put together from these.
-/

namespace Xv6

/-- In no call, with interrupts on. -/
def Thread.Ready (t : Thread) : Prop :=
  t.pc = .user ∧ t.intena = true ∧ t.inSleep = false

namespace Kernel

variable {n : ℕ}

/-- No process sleeps or is in a call. -/
structure Calm (s : Kernel n) : Prop where
  waitLock : s.mem.waitLock = none
  ready : ∀ q, (s.thread q).Ready
  awake : ∀ q, (s.mem.proc q).state ≠ .sleeping
  heat : ∀ q, (s.mem.proc q).heat ≤ MAX_HEAT

/-- CPU `c` is at the top of its scheduler's loop. -/
def AtTop (s : Kernel n) (c : Fin n) : Prop :=
  (s.cpu c).proc = none ∧ (s.cpu c).pc = .top ∧ (s.cpu c).intr = none

/-- CPU `c` runs process `p`, and no handler. -/
def Runs (s : Kernel n) (c : Fin n) (p : Slot) : Prop :=
  (s.cpu c).proc = some p ∧ (s.cpu c).pc = .swtch ∧ (s.cpu c).intr = none

variable {s : Kernel n} {c : Fin n} {p : Slot}

theorem boot_calm (n : ℕ) : (boot n).Calm := by
  have hproc : ∀ q, ((boot n).mem.proc q).state ≠ .sleeping ∧
      ((boot n).mem.proc q).heat ≤ MAX_HEAT := by
    intro q
    by_cases hq : q = initproc
    · subst hq
      simp [boot, Proc.allocproc]
    · simp [boot, hq, Proc.zero]
  exact ⟨rfl, fun _ => ⟨rfl, rfl, rfl⟩, fun q => (hproc q).1, fun q => (hproc q).2⟩

theorem boot_atTop (c : Fin n) : (boot n).AtTop c :=
  ⟨rfl, rfl, rfl⟩

end Kernel

/-! ## The dispatch -/

theorem Proc.decay_state (p : Proc) : p.decay.state = p.state := by
  unfold decay
  split_ifs <;> rfl

theorem Proc.decay_heat_le (p : Proc) (h : p.heat ≤ MAX_HEAT) : p.decay.heat ≤ MAX_HEAT := by
  unfold decay
  split_ifs
  · exact Int.le_of_lt (show (0 : Int) < MAX_HEAT by decide)
  · exact (Int.sub_le_self _ (by decide)).trans h
  · exact h

theorem Proc.heated_le (p : Proc) : p.heated ≤ MAX_HEAT := by
  unfold heated
  split_ifs <;> omega

theorem Mem.aged_state (m : Mem) (chosen : Option Slot) (p : Slot) :
    ((m.aged chosen).proc p).state = (m.proc p).state := by
  simp only [Mem.aged]
  split_ifs <;> rfl

theorem Mem.aged_heat (m : Mem) (chosen : Option Slot) (p : Slot) :
    ((m.aged chosen).proc p).heat = (m.proc p).heat := by
  simp only [Mem.aged]
  split_ifs <;> rfl

theorem Mem.runnable_of_pick {m : Mem} {p : Slot} (h : m.pick = some p) :
    (m.proc p).state = .runnable := by
  have helig : m.eligible p = true → (m.proc p).state = .runnable := by
    intro he
    simp only [Mem.eligible, Bool.and_eq_true, beq_iff_eq] at he
    exact he.1
  unfold Mem.pick at h
  obtain hA | ⟨-, h⟩ := Option.or_eq_some_iff.mp h
  · exact helig (Bool.and_eq_true_iff.mp (leastBy_spec hA).1).1
  · obtain hB | ⟨-, hC⟩ := Option.or_eq_some_iff.mp h
    · exact helig (leastBy_spec hB).1
    · simpa using List.find?_some hC

theorem Mem.pick_isSome {m : Mem} {p : Slot} (h : (m.proc p).state = .runnable) :
    m.pick.isSome := by
  have hC : (table.find? fun q => (m.proc q).state == .runnable).isSome := by
    rw [List.find?_isSome]
    exact ⟨p, mem_table p, by simp [h]⟩
  simp only [Mem.pick, Option.isSome_or, hC, Bool.or_true]

/-- The only RUNNABLE process is chosen. -/
theorem Mem.pick_of_sole {m : Mem} {p : Slot} (h : (m.proc p).state = .runnable)
    (hsole : ∀ q, (m.proc q).state = .runnable → q = p) : m.pick = some p := by
  obtain ⟨q, hq⟩ := Option.isSome_iff_exists.mp (Mem.pick_isSome h)
  rw [hq, hsole q (Mem.runnable_of_pick hq)]

/-- The coolest process is chosen if there is no test, the first one if there are several. -/
theorem Mem.pick_of_coolest {m : Mem} {p : Slot} (htest : ∀ q, m.testChild q = false)
    (hp : m.eligible p = true)
    (hmin : ∀ q, m.eligible q = true → (m.proc p).heat < (m.proc q).heat ∨
      ((m.proc p).heat = (m.proc q).heat ∧ p ≤ q)) : m.pick = some p := by
  have hA : leastBy (fun q => m.eligible q && m.testChild q) (fun q => (m.proc q).pid) table =
      none := leastBy_eq_none.mpr fun q _ => by simp [htest]
  have hB : leastBy m.eligible (fun q => (m.proc q).heat) table = some p :=
    leastBy_of_sorted (List.pairwise_lt_finRange NPROC) (mem_table p) hp fun q _ => hmin q
  simp only [Mem.pick, hA, hB, Option.none_or, Option.some_or]

/-- The process table after a round that dispatches `p`. -/
def Mem.dispatched (m : Mem) (p : Slot) : Slot → Proc :=
  Function.update (m.decayed.aged (some p)).proc p
    { (m.proc p).decay with
      state := .running, waitingTick := 0, heat := (m.proc p).decay.heated }

namespace Kernel

variable {n : ℕ} {s : Kernel n} {c : Fin n} {p : Slot}

/-- CPU `c` is in STEP 5, with `p` chosen. -/
def Chose (s : Kernel n) (c : Fin n) (p : Slot) : Prop :=
  (s.cpu c).proc = none ∧ (s.cpu c).pc = .step5 ∧ (s.cpu c).intr = none ∧
    (s.cpu c).loc.chosen = some p

/-- A round that chooses `p` gets to STEP 5. -/
theorem spins_chose (hcalm : s.Calm) (htop : s.AtTop c) (htemp : s.mem.cpuTemp < THROTTLE_TEMP)
    (hpick : s.mem.decayed.pick = some p) :
    ∃ s', Spins c s s' ∧ s'.Calm ∧ s'.Chose c p ∧
      s'.mem.proc = (s.mem.decayed.aged (some p)).proc ∧ s'.mem.cpuTemp = s.mem.cpuTemp ∧
      s'.mem.nextpid = s.mem.nextpid ∧ ∀ d, d ≠ c → s'.cpu d = s.cpu d := by
  obtain ⟨hidle, hpc, hintr⟩ := htop
  obtain ⟨m, l, hlead, hm, hl⟩ := spins_round hidle hintr hpc htemp
    fun q => Proc.decay_heat_le _ (hcalm.heat q)
  rw [hpick] at hm hl
  refine ⟨_, hlead, ⟨hm.waitLock.trans hcalm.waitLock, hcalm.ready, fun q => ?_, fun q => ?_⟩,
    ?_, hm.proc, hm.cpuTemp, hm.nextpid, fun d hd => inSched_cpu_of_ne hd m l .step5⟩
  · rw [inSched_mem, hm.proc, Mem.aged_state]
    simpa only [Mem.decayed, Proc.decay_state] using hcalm.awake q
  · rw [inSched_mem, hm.proc, Mem.aged_heat]
    exact Proc.decay_heat_le _ (hcalm.heat q)
  · rw [Chose, inSched_cpu_self]
    exact ⟨hidle, rfl, hintr, hl⟩

/-- The dispatch itself. -/
theorem step_dispatch (hcalm : s.Calm) (hchose : s.Chose c p)
    (hr : (s.mem.proc p).state = .runnable) :
    ∃ s', s.step c .sched = some s' ∧ s'.Calm ∧ s'.Runs c p ∧
      s'.mem.proc = Function.update s.mem.proc p { s.mem.proc p with
        state := .running, waitingTick := 0, heat := (s.mem.proc p).heated } ∧
      s'.mem.cpuTemp = updateCpuTemp s.mem.cpuTemp (s.mem.proc p).heated ∧
      s'.mem.nextpid = s.mem.nextpid ∧ ∀ d, d ≠ c → s'.cpu d = s.cpu d := by
  obtain ⟨hidle, hpc, hintr, hl⟩ := hchose
  set s' : Kernel n := { s with mem := dispatch s.mem (s.cpu c).loc p }.setCpu c
    { s.cpu c with pc := .swtch, proc := some p } with hs'
  have hstep : s.step c .sched = some s' := by
    simp only [step, hidle, hintr, schedule, hpc, schedStep, hl, if_pos hr, Option.map_some, resume]
    rw [if_neg (by simp [setCpu, (hcalm.ready p).2.2])]
    simp [hs', setCpu, hintr]
  have hproc : s'.mem.proc = Function.update s.mem.proc p { s.mem.proc p with
      state := .running, waitingTick := 0, heat := (s.mem.proc p).heated } :=
    dispatch_proc s.mem (s.cpu c).loc p
  refine ⟨s', hstep, ⟨?_, hcalm.ready, fun q => ?_, fun q => ?_⟩, ?_, hproc, ?_, ?_, fun d hd => ?_⟩
  · simp only [hs', setCpu, dispatch]
    split_ifs <;> exact hcalm.waitLock
  · rw [hproc]
    by_cases hq : q = p
    · simp [hq]
    · simpa only [Function.update_of_ne hq] using hcalm.awake q
  · rw [hproc]
    by_cases hq : q = p
    · simpa [hq] using Proc.heated_le _
    · simpa only [Function.update_of_ne hq] using hcalm.heat q
  · simp [hs', Runs, setCpu, hintr]
  · exact dispatch_cpuTemp s.mem (s.cpu c).loc p
  · simp only [hs', setCpu, dispatch]
    split_ifs <;> rfl
  · simp [hs', setCpu, hd]

/-- A round that chooses `p` ends in its dispatch. -/
theorem spins_dispatch (hcalm : s.Calm) (htop : s.AtTop c) (htemp : s.mem.cpuTemp < THROTTLE_TEMP)
    (hpick : s.mem.decayed.pick = some p) :
    ∃ s', Spins c s s' ∧ s'.Calm ∧ s'.Runs c p ∧
      s'.mem.proc = s.mem.dispatched p ∧
      s'.mem.cpuTemp = updateCpuTemp s.mem.cpuTemp (s.mem.proc p).decay.heated ∧
      s'.mem.nextpid = s.mem.nextpid ∧ ∀ d, d ≠ c → s'.cpu d = s.cpu d := by
  obtain ⟨s₁, hlead, hcalm₁, hchose, hproc₁, htemp₁, hpid₁, hcpu₁⟩ :=
    spins_chose hcalm htop htemp hpick
  have hp : s₁.mem.proc p = (s.mem.proc p).decay := by
    rw [hproc₁]
    simp [Mem.aged, Mem.decayed]
  have hr : (s₁.mem.proc p).state = .runnable := by
    rw [hp]
    exact Mem.runnable_of_pick hpick
  obtain ⟨s', hstep, hcalm', hruns, hproc', htemp', hpid', hcpu'⟩ := step_dispatch hcalm₁ hchose hr
  refine ⟨s', hlead.tail hstep, hcalm', hruns, ?_, ?_, hpid'.trans hpid₁,
    fun d hd => (hcpu' d hd).trans (hcpu₁ d hd)⟩
  · rw [hproc', hp, hproc₁]
    rfl
  · rw [htemp', hp, htemp₁]

/-! ## Timer interrupts -/

/-- A `wakeup` in a handler wakes nobody if nobody sleeps. -/
theorem leads_wakeup (hawake : ∀ q, (s.mem.proc q).state ≠ .sleeping) (chan : Chan)
    (todo : List Slot) (timer user : Bool) :
    (kernelMachine n).Leads (s.setIntr c (some (.wakeup chan todo timer user)))
      (s.setIntr c (some (.wakeup chan [] timer user))) := by
  induction todo with
  | nil => exact .refl
  | cons x todo ih =>
    refine .head ⟨(c, .intr), ?_⟩ ih
    have hsame : (s.mem.proc x).wakeup (some chan) = s.mem.proc x := by
      simp [Proc.wakeup, hawake x]
    simp only [kernelMachine, step, setIntr, setCpu, Function.update_self, handle]
    split_ifs <;> simp [setProc, Mem.setProc, hsame, Function.update_eq_self]

/-- A timer interrupt up to the temperature. -/
theorem leads_clockintr (hawake : ∀ q, (s.mem.proc q).state ≠ .sleeping)
    (hintr : (s.cpu c).intr = none) (hok : s.interruptible c false) :
    ∃ ticks, (kernelMachine n).Leads s ({ s with mem := { s.mem with ticks := ticks } }.setIntr c
      (some (.temp false))) := by
  have htick : (kernelMachine n).step s (c, .tick false) = some (s.tick c false) := by
    simp only [kernelMachine, step, hintr, if_pos hok]
  unfold tick at htick
  split_ifs at htick
  · set t : Kernel n := { s with mem := { s.mem with ticks := s.mem.ticks + 1 } } with ht
    have hawake' : ∀ q, (t.mem.proc q).state ≠ .sleeping := hawake
    have hwake := leads_wakeup (c := c) hawake' .ticks table true false
    refine ⟨s.mem.ticks + 1, .head ⟨_, htick⟩ (hwake.tail ⟨(c, .intr), ?_⟩)⟩
    simp [kernelMachine, step, setIntr, setCpu, handle, ht]
  · exact ⟨s.mem.ticks, .single ⟨_, htick⟩⟩

/-- A timer interrupt while `p` runs heats the CPU, and then `p` is to yield. -/
theorem leads_tick (hcalm : s.Calm) (hruns : s.Runs c p) (hp : (s.mem.proc p).state = .running) :
    ∃ s', (kernelMachine n).Leads s s' ∧ s'.Calm ∧
      s'.cpu = Function.update s.cpu c { s.cpu c with intr := some .yield } ∧
      s'.mem.proc = s.mem.proc ∧ s'.mem.cpuTemp = updateCpuTemp s.mem.cpuTemp 1 ∧
      s'.mem.nextpid = s.mem.nextpid := by
  obtain ⟨hproc, hpc, hintr⟩ := hruns
  have hok : s.interruptible c false = true := by
    simp [interruptible, hproc, (hcalm.ready p).2.1, hcalm.waitLock]
  obtain ⟨ticks, hlead⟩ := leads_clockintr hcalm.awake hintr hok
  set t : Kernel n := { s with mem := { s.mem with ticks := ticks } } with ht
  set s' : Kernel n := { t with mem := t.mem.heat 1 }.setIntr c (some .yield) with hs'
  have hnext : (kernelMachine n).Next (t.setIntr c (some (.temp false))) s' := by
    refine ⟨(c, .intr), ?_⟩
    simp [kernelMachine, step, handle, setIntr, setCpu, hs', ht, hproc, active, hp]
  exact ⟨s', hlead.tail hnext, ⟨hcalm.waitLock, hcalm.ready, hcalm.awake, hcalm.heat⟩, rfl, rfl, rfl,
    rfl⟩

/-- The yield after a timer interrupt. -/
theorem leads_yield (hcalm : s.Calm) (hrun : (s.cpu c).proc = some p)
    (hintr : (s.cpu c).intr = some .yield) :
    ∃ s', (kernelMachine n).Leads s s' ∧ s'.Calm ∧ s'.AtTop c ∧
      s'.mem.proc = Function.update s.mem.proc p { s.mem.proc p with state := .runnable } ∧
      s'.mem.cpuTemp = s.mem.cpuTemp ∧ s'.mem.nextpid = s.mem.nextpid ∧
      ∀ d, d ≠ c → s'.cpu d = s.cpu d := by
  set s' : Kernel n := (s.setProc p { s.mem.proc p with state := .runnable }).sched c with hs'
  have hnext : (kernelMachine n).Next s s' := by
    refine ⟨(c, .intr), ?_⟩
    simp [kernelMachine, step, hintr, handle, hrun, hs']
  refine ⟨s', .single hnext, ⟨hcalm.waitLock, hcalm.ready, fun q => ?_, fun q => ?_⟩, ?_, rfl, rfl, rfl,
    fun d hd => ?_⟩
  · by_cases hq : q = p
    · simp [hs', sched, setCpu, setProc, Mem.setProc, hq]
    · simpa [hs', sched, setCpu, setProc, Mem.setProc, hq] using hcalm.awake q
  · by_cases hq : q = p
    · simpa [hs', sched, setCpu, setProc, Mem.setProc, hq] using hcalm.heat p
    · simpa [hs', sched, setCpu, setProc, Mem.setProc, hq] using hcalm.heat q
  · simp [hs', AtTop, sched, setCpu]
  · simp [hs', sched, setCpu, setProc, hd]

/-- A timer interrupt at the top of the loop cools the CPU. -/
theorem leads_idleTick (hcalm : s.Calm) (htop : s.AtTop c) :
    ∃ s', (kernelMachine n).Leads s s' ∧ s'.Calm ∧ s'.cpu = s.cpu ∧
      s'.mem.proc = s.mem.proc ∧ s'.mem.cpuTemp = updateCpuTemp s.mem.cpuTemp 0 ∧
      s'.mem.nextpid = s.mem.nextpid := by
  obtain ⟨hidle, hpc, hintr⟩ := htop
  have hok : s.interruptible c false = true := by
    simp [interruptible, hidle, hpc]
  obtain ⟨ticks, hlead⟩ := leads_clockintr hcalm.awake hintr hok
  set t : Kernel n := { s with mem := { s.mem with ticks := ticks } } with ht
  have hnext : (kernelMachine n).Next (t.setIntr c (some (.temp false)))
      { t with mem := t.mem.heat 0 } := by
    refine ⟨(c, .intr), ?_⟩
    simp only [kernelMachine, step, handle, setIntr, setCpu, ht, Function.update_self, hidle, active,
      Option.map_none, Function.update_idem, Option.some.injEq]
    have hcpu : { s.cpu c with proc := none, intr := none } = s.cpu c := by
      rw [← hidle, ← hintr]
    simp [hcpu, Function.update_eq_self]
  exact ⟨_, hlead.tail hnext, ⟨hcalm.waitLock, hcalm.ready, hcalm.awake, hcalm.heat⟩, rfl, rfl, rfl,
    rfl⟩

/-! ## Forks -/

/-- The child of a fork by `p`. -/
def child (s : Kernel n) (p x : Slot) : Proc :=
  { (s.mem.proc x).allocproc s.mem.nextpid with
    state := .runnable
    parent := some p
    sz := (s.mem.proc p).sz
    name := safestrcpy (s.mem.proc p).name 16 }

/-- `allocproc` gets to the first free slot. -/
theorem leads_forkAlloc (hruns : s.Runs c p) {x : Slot} {todo : List Slot} (rest : List Slot)
    (h : ∀ y ∈ todo, (s.mem.proc y).state ≠ .unused) :
    (kernelMachine n).Leads (s.goto p (.forkAlloc (todo ++ x :: rest)))
      (s.goto p (.forkAlloc (x :: rest))) := by
  induction todo with
  | nil => exact .refl
  | cons y todo ih =>
    refine .head ⟨(c, .run true), ?_⟩ (ih fun z hz => h z (List.mem_cons_of_mem y hz))
    have hy := h y List.mem_cons_self
    simp [kernelMachine, step, goto, setThread, hruns.1, hruns.2.2, run, hy]

/-- A fork that finds the slot `x` free first. -/
theorem leads_fork (hcalm : s.Calm) (hruns : s.Runs c p) {x : Slot}
    (hx : (s.mem.proc x).state = .unused) (hp : (s.mem.proc p).state ≠ .unused)
    (hfirst : ∀ y, y < x → (s.mem.proc y).state ≠ .unused) :
    ∃ s', (kernelMachine n).Leads s s' ∧ s'.Calm ∧ s'.cpu = s.cpu ∧
      s'.mem.proc = Function.update s.mem.proc x (s.child p x) ∧
      s'.mem.cpuTemp = s.mem.cpuTemp ∧ s'.mem.nextpid = s.mem.nextpid + 1 := by
  obtain ⟨pre, rest, htable⟩ := List.append_of_mem (mem_table x)
  have hpre : ∀ y ∈ pre, (s.mem.proc y).state ≠ .unused := by
    intro y hy
    refine hfirst y ?_
    have hsorted : table.Pairwise (· < ·) := List.pairwise_lt_finRange NPROC
    rw [htable, List.pairwise_append] at hsorted
    exact hsorted.2.2 y hy x List.mem_cons_self
  have hpx : p ≠ x := by
    intro h
    exact hp (h ▸ hx)
  have hlead := leads_forkAlloc hruns rest (x := x) hpre
  rw [← htable] at hlead
  have hcall : (kernelMachine n).Next s (s.goto p (.forkAlloc table)) := by
    refine ⟨(c, .call .fork), ?_⟩
    simp [kernelMachine, step, hruns.1, hruns.2.2, (hcalm.ready p).1, call]
  set pid := s.mem.nextpid with hpid
  set s₁ : Kernel n := s.forkAlloc p x true with hs₁
  have h₁ : (kernelMachine n).Next (s.goto p (.forkAlloc (x :: rest))) s₁ := by
    refine ⟨(c, .run true), ?_⟩
    simp [kernelMachine, step, goto, setThread, hruns.1, hruns.2.2, run, hx, hs₁, forkAlloc, setProc,
      Function.update_comm hpx, Mem.setProc, hpx]
  set s₂ : Kernel n := (s₁.setProc x { s₁.mem.proc x with parent := some p }).goto p (.forkRun x pid)
    with hs₂
  have h₂ : (kernelMachine n).Next s₁ s₂ := by
    refine ⟨(c, .run true), ?_⟩
    have hpc : (s₁.thread p).pc = .forkParent x pid := by
      simp [hs₁, forkAlloc, goto, setThread, hpid]
    have hcpu : s₁.cpu = s.cpu := rfl
    have hlock : s₁.mem.waitLock = none := hcalm.waitLock
    simp [kernelMachine, step, hcpu, hruns.1, hruns.2.2, run, hpc, hlock, hs₂]
  set s₃ : Kernel n := (s₂.setProc x { s₂.mem.proc x with state := .runnable }).ret p pid with hs₃
  have h₃ : (kernelMachine n).Next s₂ s₃ := by
    refine ⟨(c, .run true), ?_⟩
    have hpc : (s₂.thread p).pc = .forkRun x pid := by
      simp [hs₂, goto, setThread]
    have hcpu : s₂.cpu = s.cpu := rfl
    simp [kernelMachine, step, hcpu, hruns.1, hruns.2.2, run, hpc, hs₃]
  have hproc : s₃.mem.proc = Function.update s.mem.proc x (s.child p x) := by
    simp [hs₃, hs₂, hs₁, ret, goto, setThread, setProc, Mem.setProc, forkAlloc, child, hpid]
  have hthread : ∀ q, (s₃.thread q).Ready := by
    intro q
    by_cases hq : q = p
    · simpa [hq, hs₃, hs₂, hs₁, ret, goto, setThread, setProc, forkAlloc, Thread.Ready, hpx] using
        (hcalm.ready p).2
    · by_cases hqx : q = x
      · simp [hqx, hs₃, hs₂, hs₁, ret, goto, setThread, setProc, forkAlloc, Thread.Ready,
          Thread.forkret, hpx.symm]
      · simpa [hq, hqx, hs₃, hs₂, hs₁, ret, goto, setThread, setProc, forkAlloc] using
          hcalm.ready q
  refine ⟨s₃, (Relation.ReflTransGen.head hcall hlead).trans
    (.head h₁ (.head h₂ (.single h₃))), ⟨hcalm.waitLock, hthread, fun q => ?_, fun q => ?_⟩, rfl,
    hproc, rfl, rfl⟩
  · rw [hproc]
    by_cases hq : q = x
    · simp [hq, child]
    · simpa [hq] using hcalm.awake q
  · rw [hproc]
    by_cases hq : q = x
    · simp [hq, child, Proc.allocproc]
    · simpa [hq] using hcalm.heat q

/-! ## The first dispatch -/

theorem boot_state {q : Slot} (hq : q ≠ initproc) : ((boot n).mem.proc q) = Proc.zero := by
  simp [boot, hq]

theorem boot_pick (n : ℕ) : (boot n).mem.decayed.pick = some initproc := by
  refine Mem.pick_of_sole rfl fun q hq => ?_
  by_contra hne
  simp only [Mem.decayed, Proc.decay_state, boot_state hne, Proc.zero] at hq
  cases hq

/-- Any CPU may be the one that starts init. -/
theorem boot_spins (c : Fin n) : ∃ s, Spins c (boot n) s ∧ s.Calm ∧ s.Runs c initproc ∧
    s.mem.proc = (boot n).mem.dispatched initproc ∧ s.mem.cpuTemp = 26 ∧ s.mem.nextpid = 2 ∧
      ∀ d, d ≠ c → s.cpu d = (boot n).cpu d :=
  spins_dispatch (boot_calm n) (boot_atTop c) (show (25 : Int) < THROTTLE_TEMP by decide) (boot_pick n)

theorem boot_runs (c : Fin n) : ∃ s, (kernelMachine n).Reachable s ∧ s.Calm ∧ s.Runs c initproc ∧
    s.mem.proc = (boot n).mem.dispatched initproc ∧ s.mem.cpuTemp = 26 ∧ s.mem.nextpid = 2 ∧
      ∀ d, d ≠ c → s.cpu d = (boot n).cpu d := by
  obtain ⟨s, hspins, h⟩ := boot_spins c
  exact ⟨s, .leads (.init rfl) hspins.leads, h⟩

end Kernel

end Xv6
