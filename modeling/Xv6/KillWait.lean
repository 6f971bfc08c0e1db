import Xv6.Console
import Xv6.WaitLock

/-!
# Kill and the blocking waits

kwait and consoleread look at `killed` and then sleep. The look is one section of `p->lock` and the sleep is
another, and kkill may come between them : it finds the process RUNNING, so it sets `killed` and wakes
nobody, and the process then goes to sleep (`kill_lost`). If no kkill comes between the
two, no process is asleep in one of the two loops with `killed` set (`not_asleep_killed`).

`Kernel.Doze` says what a step of the kernel does to what is between a look at `killed` and a sleep : one
slot, its `killed`, whether it sleeps and on what, and whether its thread is about to sleep in kwait.
-/

namespace Xv6

open Function (update_self update_of_ne)

/-- kwait has found the process not killed, and has not put it to sleep yet. -/
def ThreadPc.checked : ThreadPc → Bool
  | waitSleep _ => true
  | wakeup _ _ next => next.checked
  | _ => false

namespace Kernel

variable {n : ℕ}

/-- The next step of CPU `c` is the section of kkill that finds `x`. -/
def Kills (s : Kernel n) (c : Fin n) (a : KAct) (x : Slot) : Prop :=
  ∃ ok q pid todo, a = .run ok ∧ (s.cpu c).proc = some q ∧ (s.thread q).pc = .kill pid (x :: todo) ∧
    (s.mem.proc x).pid = pid

/-- `x` is not between kwait's look at `killed` and its sleep, unless it was. -/
def NoNearer (s s' : Kernel n) (x : Slot) : Prop :=
  (s'.thread x).pc.checked = true → (s.thread x).pc.checked = true

/-- `x` does not fall asleep. -/
def NoSleepier (s s' : Kernel n) (x : Slot) : Prop :=
  (s'.mem.proc x).state = .sleeping → (s.mem.proc x).state = .sleeping ∧
    (s'.mem.proc x).chan = (s.mem.proc x).chan

/-- What the step `a` of CPU `c` does to slot `x`. -/
inductive Doze (s : Kernel n) (c : Fin n) (a : KAct) (s' : Kernel n) (x : Slot) : Prop
  /-- Neither killed nor put to sleep. -/
  | calm (hkilled : (s'.mem.proc x).killed = true → (s.mem.proc x).killed = true)
    (hsleep : s.NoSleepier s' x) (hpc : s.NoNearer s' x)
  /-- kkill finds it. -/
  | kill (hkills : s.Kills c a x) (hawake : (s'.mem.proc x).state ≠ .sleeping) (hpc : s.NoNearer s' x)
  /-- It is killed in its own usertrap, or sleeps on a channel that is not kwait's. -/
  | call (hrun : (s.cpu c).proc = some x) (ha : ∃ y, a = .call y)
    (hpc : (s'.thread x).pc.checked = false)
    (hsleep : (s'.mem.proc x).state = .sleeping → ∀ r, (s'.mem.proc x).chan ≠ some (.proc r))
  /-- kwait finds it not killed. -/
  | check (hrun : (s.cpu c).proc = some x) (ha : ∃ ok, a = .run ok)
    (hkilled : (s'.mem.proc x).killed = false) (hsleep : s.NoSleepier s' x)
  /-- kwait sleeps. -/
  | wait (hrun : (s.cpu c).proc = some x) (ha : ∃ ok, a = .run ok)
    (hwas : (s.thread x).pc.checked = true)
    (hkilled : (s'.mem.proc x).killed = (s.mem.proc x).killed)

variable {s s' : Kernel n} {c : Fin n} {a : KAct} {p x : Slot}

/-- A change of a slot that neither kills the process nor puts it to sleep. -/
structure Calms (q q' : Proc) : Prop where
  killed : q'.killed = true → q.killed = true
  sleep : q'.state = .sleeping → q.state = .sleeping ∧ q'.chan = q.chan

theorem Calms.refl (q : Proc) : Calms q q :=
  ⟨id, fun h => ⟨h, rfl⟩⟩

theorem Calms.wakeup (q : Proc) (chan : Option Chan) : Calms q (q.wakeup chan) := by
  unfold Proc.wakeup
  split_ifs
  · exact ⟨id, fun h => by cases h⟩
  · exact .refl q

theorem Calms.of_slotStep {q q' : Proc} (h : SlotStep q q') : Calms q q' := by
  cases h with
  | refl => exact .refl q
  | decay =>
    unfold Proc.decay
    split_ifs
    · exact ⟨id, fun h => ⟨h, rfl⟩⟩
    · exact ⟨id, fun h => ⟨h, rfl⟩⟩
    · exact .refl q
  | waits hr => exact ⟨id, fun h => ⟨h, rfl⟩⟩
  | wakeup chan => exact .wakeup q chan
  | adopt r hne => exact ⟨id, fun h => ⟨h, rfl⟩⟩

theorem Calms.awake {q q' : Proc} (hkilled : q'.killed = true → q.killed = true)
    (h : q'.state ≠ .sleeping) : Calms q q' :=
  ⟨hkilled, fun hs => absurd hs h⟩

theorem Calms.of_update {f : Slot → Proc} {q : Proc} (h : Calms (f p) q) (x : Slot) :
    Calms (f x) (Function.update f p q x) := by
  by_cases hx : x = p
  · subst hx
    rwa [update_self]
  · rw [update_of_ne hx]
    exact .refl _

theorem noNearer_of_update {t : Thread} (hthread : s'.thread = Function.update s.thread p t)
    (ht : t.pc.checked = true → (s.thread p).pc.checked = true) (x : Slot) : s.NoNearer s' x := by
  intro hx
  rw [hthread] at hx
  by_cases hxp : x = p
  · subst hxp
    rw [update_self] at hx
    exact ht hx
  · rwa [update_of_ne hxp] at hx

theorem noNearer_of_pc (h : ∀ r, (s'.thread r).pc = (s.thread r).pc) (x : Slot) : s.NoNearer s' x :=
  fun hx => by rwa [h] at hx

theorem Doze.of_calms (hproc : ∀ y, Calms (s.mem.proc y) (s'.mem.proc y)) (hpc : s.NoNearer s' x) :
    Doze s c a s' x :=
  .calm (hproc x).killed (hproc x).sleep hpc

/-- The process table stays, and the thread of `p` goes on. -/
theorem Doze.goto {t : Thread} (hproc : s'.mem.proc = s.mem.proc)
    (hthread : s'.thread = Function.update s.thread p t) (ht : t.pc.checked = false) :
    Doze s c a s' x :=
  .of_calms (fun y => by rw [hproc]; exact .refl _)
    (noNearer_of_update hthread (fun h => by rw [ht] at h; cases h) x)

/-- One slot changes. -/
theorem Doze.store {y : Slot} {q : Proc} (hproc : s'.mem.proc = Function.update s.mem.proc y q)
    (hq : Calms (s.mem.proc y) q) (hpc : s.NoNearer s' x) : Doze s c a s' x :=
  .of_calms (fun z => by rw [hproc]; exact hq.of_update z) hpc

/-- A call sleeps on a channel that is not kwait's. -/
theorem sleep_doze {chan : Chan} {y : Call} (hrun : (s.cpu c).proc = some p)
    (hchan : ∀ r, chan ≠ .proc r) (hpc : (s.thread p).pc.checked = false) :
    Doze s c (.call y) (s.sleep c p chan) x := by
  by_cases hxp : x = p
  · subst hxp
    refine .call hrun ⟨y, rfl⟩ ?_ fun _ r => ?_
    · simpa [sleep, sched, setCpu, setThread, setProc] using hpc
    · simpa [sleep, sched, setCpu, setThread, setProc, Mem.setProc, Proc.sleep] using hchan r
  · refine .calm ?_ (fun h => ?_) fun h => ?_
    · simp [sleep, sched, setCpu, setThread, setProc, Mem.setProc, hxp]
    · simpa [sleep, sched, setCpu, setThread, setProc, Mem.setProc, hxp] using h
    · simpa [sleep, sched, setCpu, setThread, setProc, hxp] using h

theorem call_doze {y : Call} (hrun : (s.cpu c).proc = some p) (hpc : (s.thread p).pc = .user)
    (hr : (s.mem.proc p).state = .running) (h : s.call c p y = some s') :
    Doze s c (.call y) s' x := by
  have hnot : (s.thread p).pc.checked = false := by
    rw [hpc]
    rfl
  cases y with
  | fork | kill | wait | wakeup =>
    cases h
    exact .goto (p := p) rfl rfl rfl
  | exit status =>
    simp only [call, Option.ite_none_left_eq_some, Option.some.injEq] at h
    obtain ⟨-, rfl⟩ := h
    exact .goto (p := p) rfl rfl rfl
  | die intena =>
    obtain ⟨-, rfl⟩ := of_guard h
    exact .goto (p := p) rfl rfl rfl
  | sleep | pause =>
    cases h
    exact sleep_doze hrun (fun r hr => by cases hr) hnot
  | setkilled =>
    cases h
    by_cases hxp : x = p
    · subst hxp
      refine .call hrun ⟨_, rfl⟩ hnot fun hs => ?_
      simp [setProc, Mem.setProc, Proc.setkilled, hr] at hs
    · refine .calm (fun h => ?_) (fun h => ?_) fun h => h
      · simpa [setProc, Mem.setProc, hxp] using h
      · simpa [setProc, Mem.setProc, hxp] using h
  | exec | growproc =>
    cases h
    exact .store (y := p) rfl ⟨id, fun h => ⟨h, rfl⟩⟩ fun h => h

theorem callExiting_doze {status : Int} {y : Call} (hrun : (s.cpu c).proc = some p)
    (hpc : (s.thread p).pc = .exiting status) (h : s.callExiting c p status y = some s') :
    Doze s c (.call y) s' x := by
  cases y with
  | sleep =>
    cases h
    exact sleep_doze hrun (fun r hr => by cases hr) (by rw [hpc]; rfl)
  | wakeup =>
    cases h
    exact .goto (p := p) rfl rfl rfl
  | _ => cases h

theorem forkAlloc_doze {y : Slot} {ok : Bool} : Doze s c a (s.forkAlloc p y ok) x := by
  cases ok with
  | false =>
    exact .store (y := y) rfl (.awake (fun h => by cases h) (by simp [Proc.freeproc]))
      (noNearer_of_update (p := p) rfl (fun h => by cases h) x)
  | true =>
    refine .store (y := y) rfl (.awake id (by simp [Proc.allocproc])) fun h => ?_
    by_cases hxp : x = p
    · subst hxp
      simp [forkAlloc, goto, setThread, ThreadPc.checked] at h
    · by_cases hxy : x = y
      · subst hxy
        simp [forkAlloc, goto, setThread, hxp, Thread.forkret, ThreadPc.checked] at h
      · simpa [forkAlloc, goto, setThread, setProc, hxp, hxy] using h

theorem run_doze {ok : Bool} (hrun : (s.cpu c).proc = some p) (h : s.run c p ok = some s') :
    Doze s c (.run ok) s' x := by
  have hleft : ∀ {t : Thread} {r : Kernel n}, r.thread = Function.update s.thread p t →
      t.pc.checked = false → s.NoNearer r x := fun hthread ht =>
    noNearer_of_update hthread (fun h => by rw [ht] at h; cases h) x
  unfold run at h
  split at h
  case h_1 => cases h
  case h_3 y todo hpc =>
    cases h
    split_ifs with hy
    · exact forkAlloc_doze
    · exact .goto (p := p) rfl rfl rfl
  case h_4 np pid hpc =>
    obtain ⟨-, rfl⟩ := of_guard h
    exact .store (y := np) rfl ⟨id, fun h => ⟨h, rfl⟩⟩ (hleft rfl rfl)
  case h_5 np pid hpc =>
    cases h
    exact .store (y := np) rfl (.awake id (by simp)) (hleft rfl rfl)
  case h_7 pid y todo hpc =>
    cases h
    split_ifs with hy
    · by_cases hxy : x = y
      · subst hxy
        refine .kill ⟨ok, p, pid, todo, rfl, hrun, hpc, hy⟩ ?_ (hleft rfl rfl)
        simp only [ret, setThread, setProc, Mem.setProc, update_self, Proc.kkill]
        split_ifs with hs
        · simp
        · exact hs
      · refine .calm (fun h => ?_) (fun h => ?_) (hleft rfl rfl)
        · simpa [ret, setThread, setProc, Mem.setProc, hxy] using h
        · simpa [ret, setThread, setProc, Mem.setProc, hxy] using h
    · exact .goto (p := p) rfl rfl rfl
  case h_8 chan next hpc =>
    cases h
    refine .of_calms (fun _ => .refl _) (noNearer_of_update (p := p) rfl (fun h => ?_) x)
    rw [hpc]
    exact h
  case h_9 chan y todo next hpc =>
    cases h
    have hsame : ∀ r : Kernel n, r.thread = s.thread →
        s.NoNearer (r.goto p (.wakeup chan todo next)) x := fun r hthread =>
      noNearer_of_update (p := p) (by rw [goto, setThread, hthread]) (fun h => by rw [hpc]; exact h) x
    split_ifs with hyp
    · exact .of_calms (fun _ => .refl _) (hsame s rfl)
    · exact .store (y := y) rfl (.wakeup _ chan) (hsame _ rfl)
  case h_10 | h_14 =>
    obtain ⟨-, rfl⟩ := of_guard h
    exact .goto (p := p) rfl rfl rfl
  case h_12 status y todo hpc =>
    cases h
    split_ifs with hy
    · exact .store (y := y) rfl ⟨id, fun h => ⟨h, rfl⟩⟩ (hleft rfl rfl)
    · exact .goto (p := p) rfl rfl rfl
  case h_13 status hpc =>
    cases h
    exact .store (y := p) rfl (.awake id (by simp [Proc.exit])) fun h => h
  case h_15 =>
    cases h
    split_ifs
    · exact .goto (p := p) rfl rfl rfl
    · exact .goto (p := p) rfl rfl rfl
  case h_16 addr havekids y todo hpc =>
    cases h
    split_ifs with hpar hz
    · unfold reap
      dsimp only
      by_cases hfail : (addr && !ok) = true
      · rw [if_pos hfail]
        exact .goto (p := p) rfl rfl rfl
      · rw [if_neg hfail]
        exact .store (y := y) rfl (.awake (fun h => by cases h) (by simp [Proc.freeproc])) (hleft rfl rfl)
    · exact .goto (p := p) rfl rfl rfl
    · exact .goto (p := p) rfl rfl rfl
  case h_17 addr hpc =>
    cases h
    split_ifs with hk
    · exact .goto (p := p) rfl rfl rfl
    · by_cases hxp : x = p
      · subst hxp
        exact .check hrun ⟨ok, rfl⟩ (Bool.eq_false_iff.mpr hk) fun h => ⟨h, rfl⟩
      · refine .calm id (fun h => ⟨h, rfl⟩) fun h => ?_
        simpa [goto, setThread, hxp] using h
  case h_18 addr hpc =>
    cases h
    by_cases hxp : x = p
    · subst hxp
      refine .wait hrun ⟨ok, rfl⟩ (by rw [hpc]; rfl) ?_
      simp [sleep, sched, setCpu, setThread, setProc, Mem.setProc, goto, setWaitLock, Proc.sleep]
    · refine .calm (fun h => ?_) (fun h => ?_) fun h => ?_
      · simpa [sleep, sched, setCpu, setThread, setProc, Mem.setProc, goto, setWaitLock, hxp] using h
      · simpa [sleep, sched, setCpu, setThread, setProc, Mem.setProc, goto, setWaitLock, hxp] using h
      · simpa [sleep, sched, setCpu, setThread, setProc, goto, setWaitLock, hxp] using h
  all_goals
    cases h
    exact .goto (p := p) rfl rfl rfl

theorem handle_doze {i : Intr} (h : s.handle c i = some s') : Doze s c a s' x := by
  cases i with
  | wakeup chan todo timer user =>
    cases todo with
    | nil =>
      cases h
      exact .of_calms (fun _ => .refl _) fun h => h
    | cons y todo =>
      cases h
      split_ifs with hy
      · exact .of_calms (fun _ => .refl _) fun h => h
      · exact .store (y := y) rfl (.wakeup _ _) fun h => h
  | temp user =>
    cases h
    exact .of_calms (fun _ => .refl _) fun h => h
  | killed timer =>
    obtain ⟨p, hrun, h⟩ := Option.bind_eq_some_iff.mp h
    split_ifs at h
    · cases h
      exact .goto (p := p) rfl rfl rfl
    · cases h
      exact .of_calms (fun _ => .refl _) fun h => h
    · cases h
      exact .of_calms (fun _ => .refl _) fun h => h
  | yield =>
    obtain ⟨p, hrun, rfl⟩ := Option.map_eq_some_iff.mp h
    exact .store (y := p) rfl (.awake id (by simp)) fun h => h

theorem schedule_doze (h : s.schedule c = some s') : Doze s c a s' x := by
  obtain ⟨m, l, pc, hstep, -, ⟨y, q, hproc, hq⟩, rfl⟩ | ⟨p, -, -, hr, rfl⟩ := schedule_cases h
  · exact .store hproc (.of_slotStep hq) fun h => h
  · obtain ⟨⟨chan, hproc⟩, -, hthread, -⟩ := resume_eq ({ s with
      mem := dispatch s.mem (s.cpu c).loc p }.setCpu c { s.cpu c with pc := .swtch }) c p
    refine .store (y := p) (q := { s.mem.proc p with
      state := .running, waitingTick := 0, heat := (s.mem.proc p).heated, chan := chan })
      (hproc.trans ?_) (.awake id (by simp)) (noNearer_of_pc hthread x)
    simp [setCpu, Function.update_idem]

/-- What a step does to slot `x`. -/
theorem step_doze (hplaced : s.Placed) (h : s.step c a = some s') (x : Slot) : Doze s c a s' x := by
  have hrunning : ∀ p, (s.cpu c).proc = some p → (s.mem.proc p).state = .running :=
    fun p hp => (hplaced.running p).mpr ⟨c, hp⟩
  unfold step at h
  split at h
  case h_1 i hi => exact handle_doze h
  case h_2 user hi =>
    obtain ⟨-, rfl⟩ := of_guard h
    unfold tick
    split_ifs
    · exact .of_calms (fun _ => .refl _) fun h => h
    · exact .of_calms (fun _ => .refl _) fun h => h
  case h_3 addr user hi =>
    obtain ⟨-, rfl⟩ := of_guard h
    exact .of_calms (fun _ => .refl _) fun h => h
  case h_4 hi hidle => exact schedule_doze h
  case h_5 ok p hi hrun => exact run_doze hrun h
  case h_6 y p hi hrun =>
    split at h
    · next hpc => exact call_doze hrun hpc (hrunning p hrun) h
    · next status hpc => exact callExiting_doze hrun hpc h
    · cases h
  case h_7 => cases h

theorem Placed.of_intr (h : s.Placed) (i : Option Intr) : (s.setIntr c i).Placed := by
  have hcpu : ∀ d, ((s.setIntr c i).cpu d).proc = (s.cpu d).proc := by
    intro d
    by_cases hd : d = c
    · simp [setIntr, setCpu, hd]
    · simp [setIntr, setCpu, hd]
  refine ⟨fun p => ?_, fun d e p hd he => ?_, h.forked, h.forkedOnce⟩
  · refine (h.running p).trans (exists_congr fun d => ?_)
    rw [hcpu]
  · rw [hcpu] at hd he
    exact h.sole d e p hd he

end Kernel

/-- consoleread has found the process not killed, and has not put it to sleep yet. -/
def ReadPc.checked : ReadPc → Bool
  | sleep _ _ => true
  | _ => false

namespace Tty

variable {n : ℕ}

/-- `p` is in the `sleep(&cons.r, &cons.lock)` of consoleread. -/
def AsleepInRead (s : Tty n) (p : Slot) : Prop :=
  s.read p ≠ .out ∧ (s.kernel.mem.proc p).state = .sleeping

/-- The step is a kkill that finds a process between its look at `killed`, in kwait or consoleread, and
its sleep. -/
def KillsLate (s : Tty n) : TtyAct n → Prop
  | .kernel c a => ∃ x, s.kernel.Kills c a x ∧
    ((s.kernel.thread x).pc.checked = true ∨ (s.read x).checked = true)
  | _ => False

/-- No process is in one of the two sleeps, or about to be, with `killed` set. -/
structure Heeds (s : Tty n) : Prop where
  placed : s.kernel.Placed
  wait : ∀ p, (s.kernel.thread p).pc.checked = true ∨ s.kernel.AsleepInWait p →
    (s.kernel.mem.proc p).killed = false
  read : ∀ p, (s.read p).checked = true ∨ s.AsleepInRead p → (s.kernel.mem.proc p).killed = false

variable {s s' : Tty n} {c : Fin n} {p : Slot}

theorem boot_heeds (n : ℕ) : (boot n).Heeds := by
  refine ⟨Kernel.boot_placed n, fun p hp => ?_, fun p hp => ?_⟩
  · obtain hp | ⟨hp, -⟩ := hp
    · cases hp
    · by_cases hi : p = initproc
      · subst hi
        cases hp
      · rw [boot, Kernel.boot_state hi] at hp
        cases hp
  · obtain hp | ⟨hp, -⟩ := hp
    · cases hp
    · exact absurd rfl hp

theorem not_out_of_checked {pc : ReadPc} (h : pc.checked = true) : pc ≠ .out := by
  rintro rfl
  cases h

/-- A process that is in consoleread makes no call and no step of another. -/
theorem out_of_may {a : KAct} (h : s.may c a = true) (hrun : (s.kernel.cpu c).proc = some p)
    (ha : (∃ y, a = .call y) ∨ ∃ ok, a = .run ok) : s.read p = .out := by
  obtain ⟨y, rfl⟩ | ⟨ok, rfl⟩ := ha
  · simpa [may, hrun] using h
  · simpa [may, hrun] using h

theorem Heeds.kernelStep {a : KAct} (h : s.Heeds) (hlate : ¬ s.KillsLate (.kernel c a))
    (hs : s.kernelStep c a = some s') : s'.Heeds := by
  simp only [Tty.kernelStep, Option.ite_none_right_eq_some] at hs
  obtain ⟨hmay, hs⟩ := hs
  obtain ⟨k, hk, rfl⟩ := Option.map_eq_some_iff.mp hs
  refine ⟨h.placed.step hk, fun p hp => ?_, fun p hp => ?_⟩
  · by_contra hkilled
    rw [Bool.not_eq_false] at hkilled
    cases Kernel.step_doze h.placed hk p with
    | calm hcalm hsleep hpc =>
      have hold := h.wait p (hp.imp hpc fun ⟨hs, hc⟩ => ⟨(hsleep hs).1, (hsleep hs).2 ▸ hc⟩)
      rw [hcalm hkilled] at hold
      cases hold
    | kill hkills hawake hpc =>
      obtain hp | hp := hp
      · exact hlate ⟨p, hkills, Or.inl (hpc hp)⟩
      · exact hawake hp.1
    | call hrun ha hpc hsleep =>
      obtain hp | hp := hp
      · simp [hpc] at hp
      · exact hsleep hp.1 p hp.2
    | check hrun ha hchecked hsleep => simp [hchecked] at hkilled
    | wait hrun ha hwas hsame =>
      rw [hsame, h.wait p (Or.inl hwas)] at hkilled
      cases hkilled
  · by_contra hkilled
    rw [Bool.not_eq_false] at hkilled
    have hin : s.read p ≠ .out := hp.elim not_out_of_checked And.left
    cases Kernel.step_doze h.placed hk p with
    | calm hcalm hsleep hpc =>
      have hold := h.read p (hp.imp_right fun hp => ⟨hp.1, (hsleep hp.2).1⟩)
      rw [hcalm hkilled] at hold
      cases hold
    | kill hkills hawake hpc =>
      obtain hp | hp := hp
      · exact hlate ⟨p, hkills, Or.inr hp⟩
      · exact hawake hp.2
    | call hrun ha hpc hsleep => exact hin (out_of_may hmay hrun (Or.inl ha))
    | check hrun ha hchecked hsleep => exact hin (out_of_may hmay hrun (Or.inr ha))
    | wait hrun ha hwas hsame => exact hin (out_of_may hmay hrun (Or.inr ha))

/-- The process that runs goes on in consoleread, or leaves it. -/
theorem Heeds.goto (h : s.Heeds) (hrun : (s.kernel.cpu c).proc = some p) {pc : ReadPc}
    (hkernel : s'.kernel = s.kernel) (hread : s'.read = Function.update s.read p pc)
    (hpc : pc.checked = true → (s.kernel.mem.proc p).killed = false) : s'.Heeds := by
  have hr := (h.placed.running p).mpr ⟨c, hrun⟩
  refine ⟨hkernel ▸ h.placed, fun q => by rw [hkernel]; exact h.wait q, fun q hq => ?_⟩
  unfold AsleepInRead at hq
  rw [hkernel, hread] at hq
  rw [hkernel]
  by_cases hqp : q = p
  · subst hqp
    rw [update_self] at hq
    obtain hq | hq := hq
    · exact hpc hq
    · rw [hr] at hq
      cases hq.2
  · rw [update_of_ne hqp] at hq
    exact h.read q hq

/-- consoleread puts the process to sleep. -/
theorem Heeds.sleep (h : s.Heeds) (hrun : (s.kernel.cpu c).proc = some p) {pc : ReadPc}
    (hkernel : s'.kernel = s.kernel.sleep c p consChan)
    (hread : s'.read = Function.update s.read p pc) (hwas : (s.read p).checked = true) :
    s'.Heeds := by
  have hkilled := h.read p (Or.inl hwas)
  have hproc : s'.kernel.mem.proc = Function.update s.kernel.mem.proc p
      ((s.kernel.mem.proc p).sleep consChan) := by
    rw [hkernel]
    rfl
  have hpcs : ∀ q, (s'.kernel.thread q).pc = (s.kernel.thread q).pc := by
    intro q
    rw [hkernel]
    by_cases hq : q = p
    · simp [Kernel.sleep, Kernel.sched, Kernel.setCpu, Kernel.setThread, Kernel.setProc, hq]
    · simp [Kernel.sleep, Kernel.sched, Kernel.setCpu, Kernel.setThread, Kernel.setProc, hq]
  have hkill : ∀ q, (s'.kernel.mem.proc q).killed = (s.kernel.mem.proc q).killed := by
    intro q
    rw [hproc]
    by_cases hq : q = p
    · simp [hq, Proc.sleep]
    · rw [update_of_ne hq]
  refine ⟨h.placed.leave hrun hproc (by simp [Proc.sleep]) (fun d => hkernel ▸ Kernel.cpu_sched d)
    (fun q np hq => by rwa [hpcs] at hq), fun q hq => ?_, fun q hq => ?_⟩
  · rw [hkill]
    by_cases hqp : q = p
    · rwa [hqp]
    · rw [Kernel.AsleepInWait, hpcs, hproc, update_of_ne hqp] at hq
      exact h.wait q hq
  · rw [hkill]
    by_cases hqp : q = p
    · rwa [hqp]
    · rw [AsleepInRead, hread, update_of_ne hqp, hproc, update_of_ne hqp] at hq
      exact h.read q hq

theorem Heeds.run {ok : Bool} (h : s.Heeds) (hrun : (s.kernel.cpu c).proc = some p)
    (hs : s.run c p ok = some s') : s'.Heeds := by
  unfold Tty.run at hs
  split at hs
  · cases hs
  · obtain ⟨-, rfl⟩ := of_guard hs
    exact h.goto hrun rfl rfl fun hc => by cases hc
  · cases hs
    split_ifs
    · exact h.goto hrun rfl rfl fun hc => by cases hc
    · exact h.goto hrun rfl rfl fun hc => by cases hc
    · unfold take
      dsimp only
      split_ifs
      all_goals exact h.goto hrun rfl rfl fun hc => by cases hc
  · cases hs
    split_ifs with hk
    · exact h.goto hrun rfl rfl fun hc => by cases hc
    · exact h.goto hrun rfl rfl fun _ => Bool.eq_false_iff.mpr hk
  · next k target hread =>
    cases hs
    exact h.sleep hrun rfl rfl (by rw [hread]; rfl)

theorem Heeds.step {a : TtyAct n} (h : s.Heeds) (hlate : ¬ s.KillsLate a) (hs : s.step a = some s') :
    s'.Heeds := by
  cases a with
  | kernel c a => exact h.kernelStep hlate hs
  | read c k =>
    simp only [Tty.step] at hs
    split at hs
    · next p hi hrun =>
      obtain ⟨-, rfl⟩ := of_guard hs
      exact h.goto hrun rfl rfl fun hc => by cases hc
    · cases hs
  | run c ok =>
    simp only [Tty.step] at hs
    split at hs
    · next p hi hrun => exact h.run hrun hs
    · cases hs
  | intr c ch user =>
    obtain ⟨-, rfl⟩ := of_guard hs
    unfold Tty.intr
    dsimp only
    split_ifs
    · exact ⟨h.placed.of_intr _, h.wait, h.read⟩
    · exact ⟨h.placed.of_intr _, h.wait, h.read⟩
    · exact ⟨h.placed.of_intr _, h.wait, h.read⟩

/-! ## A process at the console -/

theorem kernelStep_of_quiet {k k' : Kernel n} {a : KAct} (h : k.step c a = some k') :
    (ttyMachine n).step { boot n with kernel := k } (.kernel c a) = some { boot n with kernel := k' } := by
  have hmay : ({ boot n with kernel := k } : Tty n).may c a = true := by
    unfold may
    split
    all_goals simp [boot]
  simp only [ttyMachine, step, Tty.kernelStep, hmay, if_true, h, Option.map_some]
  simp [boot]

/-- While nobody uses the console, the kernel goes on as it does alone. -/
theorem reachable_of_kernel {k : Kernel n} (h : (kernelMachine n).Reachable k) :
    (ttyMachine n).Reachable { boot n with kernel := k } := by
  induction h with
  | init h =>
    obtain rfl := h
    exact .init rfl
  | step _ _ hs ih => exact .step ih trivial (kernelStep_of_quiet hs)

/-- The scheduler kills nobody. -/
theorem reachWhen_of_spins {k : Kernel n} (h : Kernel.Spins c (Kernel.boot n) k) :
    (ttyMachine n).ReachWhen (fun s a => ¬ s.KillsLate a) { boot n with kernel := k } := by
  induction h with
  | refl => exact .init rfl
  | tail _ hs ih =>
    refine .step ih ?_ (kernelStep_of_quiet hs)
    rintro ⟨x, ⟨ok, q, pid, todo, ha, -⟩, -⟩
    cases ha

/-- Process `p` alone is in consoleread, with `cons.lock` if `held`. -/
def reading (k : Kernel n) (p : Slot) (pc : ReadPc) (held : Bool) : Tty n :=
  { boot n with
    kernel := k
    lock := if held then some (.proc p) else none
    read := Function.update (fun _ => .out) p pc }

/-- consoleread of an empty console gets to its sleep. -/
theorem reading_exec {k : Kernel n} (hruns : k.Runs c p) (hpc : (k.thread p).pc = .user)
    (halive : (k.mem.proc p).killed = false) :
    (ttyMachine n).exec { boot n with kernel := k } [.read c 1, .run c true, .run c true, .run c true] =
      some (reading k p (.sleep 1 1) true) := by
  simp [Machine.exec, ttyMachine, step, run, reading, boot, goto, hruns.1, hruns.2.2, hpc, halive]

theorem reading_sleep {k : Kernel n} (hruns : k.Runs c p) :
    (ttyMachine n).step (reading k p (.sleep 1 1) true) (.run c true) =
      some (reading (k.sleep c p consChan) p (.lock 1 1) false) := by
  simp [ttyMachine, step, run, reading, boot, goto, hruns.1, hruns.2.2]

theorem reading_asleep (k : Kernel n) (c : Fin n) (p : Slot) :
    (reading (k.sleep c p consChan) p (.lock 1 1) false).AsleepInRead p := by
  simp [AsleepInRead, reading, Kernel.sleep, Kernel.sched, Kernel.setCpu, Kernel.setThread, Kernel.setProc,
    Mem.setProc, Proc.sleep]

end Tty

/-- If no kkill finds a process between its look at `killed`, in kwait or consoleread, and its sleep, then no
process is asleep in kwait or in consoleread with `killed` set. -/
theorem not_asleep_killed {n : ℕ} {s : Tty n}
    (h : (ttyMachine n).ReachWhen (fun s a => ¬ s.KillsLate a) s) (p : Slot)
    (hp : s.kernel.AsleepInWait p ∨ s.AsleepInRead p) : (s.kernel.mem.proc p).killed = false := by
  have hheeds : s.Heeds := h.invariant (I := Tty.Heeds) (fun _ h0 => h0 ▸ Tty.boot_heeds n)
    fun _ _ _ _ hx hlate hs => hx.step hlate hs
  obtain hp | hp := hp
  · exact hheeds.wait p (Or.inr hp)
  · exact hheeds.read p (Or.inr hp)

/-- init reads the console, and goes to sleep; nothing is killed. -/
theorem not_asleep_killed_init : ∃ s : Tty 1, (ttyMachine 1).ReachWhen (fun s a => ¬ s.KillsLate a) s ∧
    s.AsleepInRead initproc ∧ (s.kernel.mem.proc initproc).killed = false := by
  obtain ⟨k, hspins, hcalm, hruns, hproc, -⟩ := Kernel.boot_spins (n := 1) 0
  have halive : (k.mem.proc initproc).killed = false := by
    rw [hproc, Mem.dispatched, Function.update_self]
    rfl
  have hreach := (Tty.reachWhen_of_spins hspins).exec_of_forall
    (by simp [Tty.KillsLate]) (Tty.reading_exec hruns (hcalm.ready initproc).1 halive)
  have hsleep := hreach.step (a := .run 0 true) id (Tty.reading_sleep hruns)
  have hasleep := Tty.reading_asleep k 0 initproc
  exact ⟨_, hsleep, hasleep, not_asleep_killed hsleep initproc (Or.inr hasleep)⟩

/-! ## Kills that are lost -/

namespace Kernel

variable {n : ℕ} {s : Kernel n} {c : Fin n} {p : Slot}

/-- kwait goes over the table and finds no ZOMBIE. -/
theorem leads_waitScan (hruns : s.Runs c p) (hz : ∀ x, (s.mem.proc x).state ≠ .zombie) (addr : Bool)
    (todo : List Slot) (havekids : Bool) :
    (kernelMachine n).Leads (s.goto p (.waitScan addr havekids todo)) (s.goto p (.waitScan addr
      (havekids || todo.any fun x => decide ((s.mem.proc x).parent = some p)) [])) := by
  induction todo generalizing havekids with
  | nil =>
    rw [List.any_nil, Bool.or_false]
  | cons x todo ih =>
    rw [List.any_cons, ← Bool.or_assoc]
    refine .head ⟨(c, .run true), ?_⟩ (ih _)
    by_cases hx : (s.mem.proc x).parent = some p
    · simp [kernelMachine, step, goto, setThread, hruns.1, hruns.2.2, run, hx, hz x]
    · simp [kernelMachine, step, goto, setThread, hruns.1, hruns.2.2, run, hx]

/-- init on one CPU, its child on the other, and the child's own child. -/
structure Three (s : Kernel 2) : Prop where
  calm : s.Calm
  init : s.Runs 0 initproc
  child : s.Runs 1 1
  initPid : (s.mem.proc initproc).pid = 1
  childPid : (s.mem.proc 1).pid = 2
  alive : (s.mem.proc 1).killed = false
  running : (s.mem.proc 1).state = .running
  parent : (s.mem.proc 2).parent = some 1
  zombie : ∀ x, (s.mem.proc x).state ≠ .zombie

theorem decay_keeps (q : Proc) : q.decay.pid = q.pid ∧ q.decay.killed = q.killed := by
  unfold Proc.decay
  split_ifs <;> exact ⟨rfl, rfl⟩

theorem aged_keeps (m : Mem) (chosen : Option Slot) (x : Slot) :
    ((m.aged chosen).proc x).pid = (m.proc x).pid ∧
      ((m.aged chosen).proc x).killed = (m.proc x).killed := by
  simp only [Mem.aged]
  split_ifs <;> exact ⟨rfl, rfl⟩

theorem dispatched_keeps (m : Mem) (p x : Slot) : (m.dispatched p x).pid = (m.proc x).pid ∧
    (m.dispatched p x).killed = (m.proc x).killed := by
  unfold Mem.dispatched
  by_cases hx : x = p
  · subst hx
    rw [update_self]
    exact decay_keeps _
  · rw [update_of_ne hx, (aged_keeps ..).1, (aged_keeps ..).2]
    exact decay_keeps _

theorem dispatched_state {m : Mem} {p x : Slot} (hx : x ≠ p) :
    (m.dispatched p x).state = (m.proc x).state := by
  rw [Mem.dispatched, update_of_ne hx, Mem.aged_state]
  simp only [Mem.decayed, Proc.decay_state]

theorem three_reachable : ∃ s, (kernelMachine 2).Reachable s ∧ s.Three := by
  obtain ⟨s₀, hreach, hcalm₀, hruns₀, hproc₀, htemp₀, hpid₀, hcpu₀⟩ := boot_runs (n := 2) 0
  have hinit₀ : (s₀.mem.proc initproc).state = .running := by
    rw [hproc₀, Mem.dispatched, update_self]
  have hfree₀ : ∀ x, x ≠ initproc → s₀.mem.proc x = Proc.zero := fun x hx => by
    rw [hproc₀, Mem.dispatched, update_of_ne hx]
    simp [Mem.aged, Mem.decayed, boot_state hx, Proc.decay, Proc.zero]
  obtain ⟨s₁, hlead₁, hcalm₁, hcpu₁, hproc₁, htemp₁, hpid₁⟩ := leads_fork (x := 1) hcalm₀ hruns₀
    (by rw [hfree₀ 1 (by decide)]; rfl) (by simp [hinit₀]) fun y hy => by
      obtain rfl : y = initproc := Fin.ext (Nat.lt_one_iff.mp hy)
      simp [hinit₀]
  have hinit₁ : s₁.mem.proc initproc = s₀.mem.proc initproc := by
    rw [hproc₁, update_of_ne (by decide)]
  have hchild₁ : s₁.mem.proc 1 = s₀.child initproc 1 := by rw [hproc₁, update_self]
  have hfree₁ : ∀ x, x ≠ initproc → x ≠ 1 → s₁.mem.proc x = Proc.zero := fun x hx hx1 => by
    rw [hproc₁, update_of_ne hx1, hfree₀ x hx]
  have hpick : s₁.mem.decayed.pick = some 1 := by
    refine Mem.pick_of_sole (by simp [Mem.decayed, Proc.decay_state, hchild₁, child]) fun q hq => ?_
    by_contra hne
    by_cases hqi : q = initproc
    · simp [hqi, Mem.decayed, Proc.decay_state, hinit₁, hinit₀] at hq
    · simp [Mem.decayed, Proc.decay_state, hfree₁ q hqi hne, Proc.zero] at hq
  obtain ⟨s₂, hlead₂, hcalm₂, hruns₂, hproc₂, -, hpid₂, hcpu₂⟩ := spins_dispatch (c := 1) hcalm₁
    (by rw [AtTop, hcpu₁, hcpu₀ 1 (by decide)]; exact boot_atTop 1)
    (by rw [htemp₁, htemp₀]; decide) hpick
  have hinit₂ : (s₂.mem.proc initproc).state = .running := by
    rw [hproc₂, dispatched_state (by decide), hinit₁, hinit₀]
  have hchild₂ : (s₂.mem.proc 1).state = .running := by
    rw [hproc₂, Mem.dispatched, update_self]
  have hfree₂ : ∀ x, x ≠ initproc → x ≠ 1 → (s₂.mem.proc x).state = .unused := fun x hx hx1 => by
    rw [hproc₂, dispatched_state hx1, hfree₁ x hx hx1]
    rfl
  have hbelow : ∀ y : Slot, y < 2 → y = initproc ∨ y = 1 := by decide
  obtain ⟨s₃, hlead₃, hcalm₃, hcpu₃, hproc₃, -, -⟩ := leads_fork (x := 2) hcalm₂ hruns₂
    (hfree₂ 2 (by decide) (by decide)) (by simp [hchild₂]) fun y hy => by
      obtain rfl | rfl := hbelow y hy
      · simp [hinit₂]
      · simp [hchild₂]
  have hkept : ∀ x, x ≠ 2 → s₃.mem.proc x = s₂.mem.proc x := fun x hx => by
    rw [hproc₃, update_of_ne hx]
  refine ⟨s₃, .leads hreach (hlead₁.trans (hlead₂.leads.trans hlead₃)), hcalm₃, ?_, ?_, ?_, ?_, ?_, ?_, ?_, ?_⟩
  · rw [Runs, hcpu₃, hcpu₂ 0 (by decide), hcpu₁]
    exact hruns₀
  · rw [Runs, hcpu₃]
    exact hruns₂
  · rw [hkept _ (by decide), hproc₂, (dispatched_keeps ..).1, hinit₁, hproc₀, (dispatched_keeps ..).1]
    rfl
  · rw [hkept _ (by decide), hproc₂, (dispatched_keeps ..).1, hchild₁]
    simp [child, Proc.allocproc, hpid₀]
  · rw [hkept _ (by decide), hproc₂, (dispatched_keeps ..).2, hchild₁]
    simp [child, Proc.allocproc, hfree₀ 1 (by decide), Proc.zero]
  · rw [hkept _ (by decide), hchild₂]
  · rw [hproc₃, update_self]
    rfl
  · intro x hx
    by_cases hx2 : x = 2
    · simp [hx2, hproc₃, child] at hx
    · rw [hkept x hx2] at hx
      by_cases hxi : x = initproc
      · simp [hxi, hinit₂] at hx
      · by_cases hx1 : x = 1
        · simp [hx1, hchild₂] at hx
        · simp [hfree₂ x hxi hx1] at hx

/-- init kills its child : the call, slot 0, and slot 1. -/
theorem kill_steps {s : Kernel 2} (hruns : s.Runs 0 initproc) (hinit : (s.mem.proc initproc).pid = 1)
    (hpid : (s.mem.proc 1).pid = 2) (hpc : (s.thread initproc).pc = .user) :
    ∃ s₁ s₂, s.step 0 (.call (.kill 2)) = some s₁ ∧ s₁.step 0 (.run true) = some s₂ ∧
      s₂.step 0 (.run true) = some ((s.setProc 1 (s.mem.proc 1).kkill).ret initproc 0) ∧
      s₁.cpu = s.cpu ∧ s₂.cpu = s.cpu := by
  have htable : table = initproc :: 1 :: table.drop 2 := by decide
  refine ⟨s.goto initproc (.kill 2 (initproc :: 1 :: table.drop 2)),
    s.goto initproc (.kill 2 (1 :: table.drop 2)), ?_, ?_, ?_, rfl, rfl⟩
  · rw [← htable]
    simp [step, hruns.1, hruns.2.2, hpc, call]
  · simp [step, goto, setThread, hruns.1, hruns.2.2, run, hinit]
  · simp [step, goto, ret, setThread, setProc, hruns.1, hruns.2.2, run, hpid]

/-- The child waits for its own child; init kills it between its look at `killed` and its sleep. -/
theorem Three.wait {s : Kernel 2} (h : s.Three) : ∃ s', (kernelMachine 2).Leads s s' ∧
    s'.AsleepInWait 1 ∧ (s'.mem.proc 1).killed = true := by
  have hne : initproc ≠ 1 := by decide
  have hready := h.calm.ready 1
  have hcall : (kernelMachine 2).Next s (s.goto 1 (.waitLock true)) := by
    refine ⟨(1, .call (.wait true)), ?_⟩
    simp [kernelMachine, step, h.child.1, h.child.2.2, hready.1, call]
  set t := s.setWaitLock (some 1) with ht
  have hlock : (kernelMachine 2).Next (s.goto 1 (.waitLock true)) (t.goto 1 (.waitScan true false table)) := by
    refine ⟨(1, .run true), ?_⟩
    simp [kernelMachine, step, goto, setThread, h.child.1, h.child.2.2, run, h.calm.waitLock, ht,
      setWaitLock]
  have hscan := leads_waitScan (s := t) (c := 1) (p := 1) h.child h.zombie true table false
  have hkids : (false || table.any fun x => decide ((t.mem.proc x).parent = some 1)) = true := by
    rw [Bool.false_or, List.any_eq_true]
    exact ⟨2, mem_table 2, decide_eq_true h.parent⟩
  rw [hkids] at hscan
  have hfound : (kernelMachine 2).Next (t.goto 1 (.waitScan true true [])) (t.goto 1 (.waitKilled true)) := by
    refine ⟨(1, .run true), ?_⟩
    simp [kernelMachine, step, goto, setThread, ht, setWaitLock, h.child.1, h.child.2.2, run]
  have hlook : (kernelMachine 2).Next (t.goto 1 (.waitKilled true)) (t.goto 1 (.waitSleep true)) := by
    refine ⟨(1, .run true), ?_⟩
    simp [kernelMachine, step, goto, setThread, ht, setWaitLock, h.child.1, h.child.2.2, run, h.alive]
  obtain ⟨t₁, t₂, hkill₁, hkill₂, hkill₃, -, -⟩ := kill_steps (s := t.goto 1 (.waitSleep true)) h.init
    h.initPid h.childPid (by simpa [goto, setThread, ht, setWaitLock, hne] using (h.calm.ready initproc).1)
  set u := (((t.goto 1 (.waitSleep true)).setProc 1
    ((t.goto 1 (.waitSleep true)).mem.proc 1).kkill).ret initproc 0) with hu
  have hupc : (u.thread 1).pc = .waitSleep true := by
    simp [hu, ret, setThread, setProc, goto, hne.symm]
  have hsleep : (kernelMachine 2).Next u
      (((u.setWaitLock none).goto 1 (.waitLock true)).sleep 1 1 (.proc 1)) := by
    refine ⟨(1, .run true), ?_⟩
    have hcpu : u.cpu = s.cpu := rfl
    simp [kernelMachine, step, hcpu, h.child.1, h.child.2.2, run, hupc]
  refine ⟨_, (Relation.ReflTransGen.head hcall (.head hlock hscan)).trans
    (.head hfound (.head hlook (.head ⟨(0, .call (.kill 2)), hkill₁⟩ (.head ⟨(0, .run true), hkill₂⟩
      (.head ⟨(0, .run true), hkill₃⟩ (.single hsleep)))))), ⟨?_, ?_⟩, ?_⟩
  · simp [sleep, sched, setCpu, setThread, setProc, Mem.setProc, Proc.sleep]
  · simp [sleep, sched, setCpu, setThread, setProc, Mem.setProc, Proc.sleep]
  · simp [sleep, sched, setCpu, setThread, setProc, Mem.setProc, Proc.sleep, goto, setWaitLock, hu, ret,
      Proc.kkill]

end Kernel

namespace Tty

variable {n : ℕ}

/-- The child reads the console, which has no line; init kills it between its look at `killed` and its
sleep. -/
theorem leads_read {k : Kernel 2} (h : k.Three) : ∃ s, (ttyMachine 2).Leads
    { boot 2 with kernel := k } s ∧ s.AsleepInRead 1 ∧ (s.kernel.mem.proc 1).killed = true := by
  have hne : initproc ≠ 1 := by decide
  -- the steps of init on the other CPU
  have hinit : ∀ {u v : Kernel 2} {a : KAct}, u.cpu = k.cpu → u.step 0 a = some v →
      (∃ y, a = .call y) ∨ (∃ ok, a = .run ok) →
      (ttyMachine 2).Next (reading u 1 (.sleep 1 1) true) (reading v 1 (.sleep 1 1) true) := by
    intro u v a hcpu hstep ha
    refine ⟨.kernel 0 a, ?_⟩
    have hmay : (reading u 1 (.sleep 1 1) true).may 0 a = true := by
      obtain ⟨y, rfl⟩ | ⟨ok, rfl⟩ := ha
      · simp [may, reading, hcpu, h.init.1, hne, boot]
      · simp [may, reading, hcpu, h.init.1, hne, boot]
    simp only [ttyMachine, step, kernelStep, hmay, if_true]
    simp [reading, hstep]
  obtain ⟨k₁, k₂, hkill₁, hkill₂, hkill₃, hcpu₁, hcpu₂⟩ := Kernel.kill_steps h.init h.initPid h.childPid
    (h.calm.ready initproc).1
  set u := (k.setProc 1 (k.mem.proc 1).kkill).ret initproc 0 with hu
  have hsleep : (ttyMachine 2).Next (reading u 1 (.sleep 1 1) true) _ :=
    ⟨.run 1 true, reading_sleep (c := 1) h.child⟩
  refine ⟨_, (Machine.leads_of_exec (reading_exec h.child (h.calm.ready 1).1 h.alive)).trans
    (.head (hinit rfl hkill₁ (Or.inl ⟨_, rfl⟩)) (.head (hinit hcpu₁ hkill₂ (Or.inr ⟨_, rfl⟩))
      (.head (hinit hcpu₂ hkill₃ (Or.inr ⟨_, rfl⟩)) (.single hsleep)))), reading_asleep u 1 1, ?_⟩
  simp [reading, hu, Kernel.sleep, Kernel.sched, Kernel.setCpu, Kernel.setThread, Kernel.setProc, Mem.setProc,
    Kernel.ret, Proc.sleep, Proc.kkill]

end Tty

/-- A kkill between the look at `killed` and the sleep is lost : a process sleeps in kwait, and in another
run one in consoleread, with `killed` set. -/
theorem kill_lost :
    (∃ s : Tty 2, (ttyMachine 2).Reachable s ∧
      s.kernel.AsleepInWait 1 ∧ (s.kernel.mem.proc 1).killed = true) ∧
    ∃ s : Tty 2, (ttyMachine 2).Reachable s ∧ s.AsleepInRead 1 ∧
      (s.kernel.mem.proc 1).killed = true := by
  obtain ⟨k, hk, h⟩ := Kernel.three_reachable
  have hreach : (ttyMachine 2).Reachable { Tty.boot 2 with kernel := k } := Tty.reachable_of_kernel hk
  obtain ⟨k', hlead, hwait, hkilled⟩ := h.wait
  obtain ⟨s, hread, hasleep, hkilled'⟩ := Tty.leads_read h
  exact ⟨⟨_, Tty.reachable_of_kernel (hk.leads hlead), hwait, hkilled⟩, s, hreach.leads hread, hasleep,
    hkilled'⟩

end Xv6
