import Xv6.PipeExclusion

/-!
# Sleeping inside the section

On a full or an empty pipe the code calls `sleep` between `peterson_enter` and
`peterson_exit`, its flag still up, and passes the null pointer for the lock.

*The pair gets stuck.* A sleeper is woken by its peer only, and only from inside the
section. A peer that waits in `peterson_enter` while the other sleeps waits for ever
(`stuck_of_asleep_waiting`). The pair gets there exactly by the two steps of
`Sys.JoinsSleeper` : a call of `sleep` while the peer waits, and the turn store of a peer
that finds the other asleep (`not_stuck_iff_not_joinsSleeper`).

*The kernel stops.* With `sleep` as written, each of these calls loads through the null
pointer in `release`. No call is made in a run that never takes the two branches of
`Sys.TakesSleep` : a writer that finds the pipe full, and a reader that finds it empty with
the write end open, neither of them killed; and whoever takes one of them can stop the
kernel (`sleep_lock_iff_not_takesSleep`).
-/

set_option linter.unusedSectionVars false

namespace Xv6

variable {P : Type}

namespace Sys

variable [DecidableEq P]

/-- `p` is in the busy wait of its `peterson_enter`, and its condition is true. -/
def Spins (s : Sys P) (p : P) : Prop :=
  ∃ f, s.frame p = some f ∧ f.pc.phase = .waiting ∧
    s.pipe.flag f.op.tid.other = true ∧ s.pipe.turn = f.op.tid.other

end Sys

/-! ## One writer and one reader -/

/-- One of the pair is SLEEPING on its channel, and the other spins and will in every run. -/
def Stuck (M : Machine (Sys Side) (Side × PipeAct)) (s : Sys Side) : Prop :=
  ∃ e : Side, s.At e .sleeping ∧ s.Spins e.other ∧ ∀ s', M.Leads s s' → s'.Spins e.other

/-- The steps that leave one of the pair asleep and the other waiting : a call of `sleep`
while the other waits, and the turn store while the other sleeps. -/
def Sys.JoinsSleeper (s : Sys Side) (a : Side × PipeAct) : Prop :=
  a.2 = .run ∧ ((s.At a.1 .calling ∧ s.At a.1.other .waiting) ∨
    (s.At a.1 .giving ∧ s.At a.1.other .sleeping))

section Pair

variable {c : Config Side} {C : Sys Side → Side × PipeAct → Prop}

/-- `e` sleeps inside the section and the other waits for it. -/
structure Blocked (e : Side) (s : Sys Side) : Prop where
  asleep : s.At e .sleeping
  waits : ∃ f, s.frame e.other = some f ∧ f.pc.phase = .waiting ∧ f.op.tid = e.other
  flag : s.pipe.flag e = true
  turn : s.pipe.turn = e

theorem Blocked.spins {e : Side} {s : Sys Side} (h : Blocked e s) : s.Spins e.other := by
  obtain ⟨f, hf, hph, htid⟩ := h.waits
  refine ⟨f, hf, hph, ?_, ?_⟩
  · rw [htid, Side.other_other]
    exact h.flag
  · rw [htid, Side.other_other]
    exact h.turn

/-- Outside the copies, the next step of a process is a `run`. -/
theorem run_of_step [DecidableEq P] {c : Config P} {s s' : Sys P} {p : P} {f : Frame P}
    {a : PipeAct} (hf : s.frame p = some f) (hph : f.pc.phase ≠ .working) (ha : a ≠ .kill)
    (hs : s.step c p a = some s') : (s.touch f.pc).run c p f = some s' := by
  have hin : f.pc ≠ .wCopyin := fun h => hph (by rw [h]; rfl)
  have hout : f.pc ≠ .rCopyout := fun h => hph (by rw [h]; rfl)
  cases a <;> simp_all [Sys.step]

/-- A sleeper has no step. -/
theorem step_sleeping [DecidableEq P] {c : Config P} {s s' : Sys P} {p : P} {a : PipeAct}
    (h : s.At p .sleeping) (ha : a ≠ .kill) (hs : s.step c p a = some s') : False := by
  obtain ⟨f, hf, hph⟩ := h
  have hrun := run_of_step hf (by rw [hph]; decide) ha hs
  cases hpc : f.pc <;> simp only [hpc, Pc.phase, reduceCtorEq] at hph <;>
    simp [Sys.run, hpc] at hrun

/-- A process in the busy wait goes round it while the flag it waits for is up and the turn
is the other's. -/
theorem step_spinning [DecidableEq P] {c : Config P} {s s' : Sys P} {p : P} {f : Frame P}
    {a : PipeAct} (hf : s.frame p = some f) (hph : f.pc.phase = .waiting)
    (hflag : s.pipe.flag f.op.tid.other = true) (hturn : s.pipe.turn = f.op.tid.other)
    (ha : a ≠ .kill) (hs : s.step c p a = some s') :
    ∃ pc : Pc P, pc.phase = .waiting ∧ s' = (s.touch f.pc).goto p f pc := by
  have hrun := run_of_step hf (by rw [hph]; decide) ha hs
  cases hpc : f.pc <;> simp only [hpc, Pc.phase, reduceCtorEq] at hph <;>
    simp only [Sys.run, hpc, Sys.touch, hflag, hturn, ite_true, Option.some.injEq] at hrun
  · exact ⟨.loadTurn, rfl, hrun.symm⟩
  · exact ⟨.loadFlag, rfl, hrun.symm⟩

theorem ne_kill_of_ownAct {a : Side × PipeAct} (h : OwnAct false a = true) : a.2 ≠ .kill := by
  intro ha
  simp [OwnAct, ha] at h

/-- No step of either process ends it. -/
theorem Blocked.step {e : Side} {s s' : Sys Side} {a : Side × PipeAct} (h : Blocked e s)
    (hs : (pairMachine c false).step s a = some s') : Blocked e s' := by
  obtain ⟨hown, hs⟩ := pairMachine_step.mp hs
  have hkill := ne_kill_of_ownAct hown
  by_cases hp : a.1 = e
  · rw [hp] at hs
    exact (step_sleeping h.asleep hkill hs).elim
  · rw [Side.eq_other_of_ne hp] at hs
    obtain ⟨f, hf, hph, htid⟩ := h.waits
    have he : f.op.tid.other = e := by rw [htid, Side.other_other]
    obtain ⟨pc, hpc, rfl⟩ :=
      step_spinning hf hph (by rw [he]; exact h.flag) (by rw [he]; exact h.turn) hkill hs
    obtain ⟨g, hg, hgph⟩ := h.asleep
    refine ⟨⟨g, ?_, hgph⟩, ⟨_, Sys.goto_frame_self _ _ f pc, hpc, htid⟩, h.flag, h.turn⟩
    rw [Sys.goto_frame_of_ne _ (Side.other_ne e).symm]
    exact hg

theorem Frame.loc_of_sleeping {f : Frame P} (h : f.pc.phase = .sleeping) :
    f.loc = .inside f.op.tid := by
  unfold Frame.loc
  cases hpc : f.pc <;> simp_all [Pc.phase]

theorem Frame.past_of_waiting {f : Frame P} (h : f.pc.phase = .waiting) :
    f.loc.Past f.op.tid := by
  unfold Frame.loc Loc.Past
  cases hpc : f.pc <;> simp_all [Pc.phase]

/-- The lock has the flag of a sleeper up, and the turn left to it by a peer that waits. -/
theorem blocked_of_asleep_waiting {s : Sys Side} (h : (pairMachine c false).ReachWhen C s)
    {e : Side} (hs : s.At e .sleeping) (hw : s.At e.other .waiting) : Blocked e s := by
  obtain ⟨f, hf, hfs⟩ := hs
  obtain ⟨g, hg, hgw⟩ := hw
  have hft : f.op.tid = e := tid_of_ownOp (pair_ownOp h e f hf)
  have hgt : g.op.tid = e.other := tid_of_ownOp (pair_ownOp h e.other g hg)
  have hin : s.lock.loc e = .inside e := by
    simp only [Sys.lock, hf, locOf_some]
    rw [Frame.loc_of_sleeping hfs, hft]
  have hpast : (s.lock.loc e.other).Past e.other := by
    simp only [Sys.lock, hg, locOf_some]
    rw [← hgt]
    exact Frame.past_of_waiting hgw
  refine ⟨⟨f, hf, hfs⟩, ⟨g, hg, hgw, hgt⟩, ?_, ?_⟩
  · exact (pair_fair h).flag e e trivial (by rw [hin]; rfl)
  · exact (pair_fair h).turn e e.other e trivial trivial hin hpast

theorem stuck_of_asleep_waiting {s : Sys Side} (h : (pairMachine c false).ReachWhen C s)
    {e : Side} (hs : s.At e .sleeping) (hw : s.At e.other .waiting) :
    Stuck (pairMachine c false) s := by
  have hb := blocked_of_asleep_waiting h hs hw
  refine ⟨e, hs, hb.spins, fun s' hl => ?_⟩
  exact (Machine.Leads.invariant (fun _ _ _ => Blocked.step) hl hb).spins

theorem not_asleep_of_stuck {M : Machine (Sys Side) (Side × PipeAct)} {s : Sys Side}
    (h : ∀ e : Side, ¬(s.At e .sleeping ∧ s.At e.other .waiting)) : ¬Stuck M s := by
  rintro ⟨e, hs, ⟨f, hf, hph, -⟩, -⟩
  exact h e ⟨hs, f, hf, hph⟩

/-- A stage before a sleep is the call of `sleep`, and one before the busy wait the turn
store or the busy wait. -/
theorem Phase.mem_next {ph ph₀ : Phase} (h : ph ∈ ph₀.next) :
    (ph = .sleeping → ph₀ = .calling) ∧ (ph = .waiting → ph₀ = .giving ∨ ph₀ = .waiting) := by
  revert h
  cases ph₀ <;> cases ph <;> decide

/-- The step that leaves one of the pair asleep and the other waiting joins a sleeper. -/
theorem joinsSleeper_of_step {s s' : Sys Side} {a : Side × PipeAct} {e : Side}
    (h : s.step c a.1 a.2 = some s') (hs : s'.At e .sleeping) (hw : s'.At e.other .waiting) :
    (s.At e .sleeping ∧ s.At e.other .waiting) ∨ s.JoinsSleeper a := by
  obtain ⟨p, a⟩ := a
  by_cases hp : p = e
  · subst hp
    have hw' := Sys.step_at_other h (Side.other_ne p) (by decide) hw
    rcases Sys.step_at h hs with h | h | ⟨-, hat⟩ | ⟨ha, ph₀, hat, hn⟩
    · cases h
    · cases h
    · exact Or.inl ⟨hat, hw'⟩
    · rw [(Phase.mem_next hn).1 rfl] at hat
      exact Or.inr ⟨ha, Or.inl ⟨hat, hw'⟩⟩
  · obtain rfl := Side.eq_other_of_ne hp
    have hs' := Sys.step_at_other h (Side.other_ne e).symm (by decide) hs
    rcases Sys.step_at h hw with h | h | ⟨-, hat⟩ | ⟨ha, ph₀, hat, hn⟩
    · cases h
    · cases h
    · exact Or.inl ⟨hs', hat⟩
    · rcases (Phase.mem_next hn).2 rfl with rfl | rfl
      · exact Or.inr ⟨ha, Or.inr ⟨hat, by simpa using hs'⟩⟩
      · exact Or.inl ⟨hs', hat⟩

/-- With a blocking `sleep`, its caller is asleep after the call. -/
theorem at_sleeping_of_calling [DecidableEq P] {c : Config P} (hc : c.sleep = .blocking)
    {s s' : Sys P} {p : P} (h : s.At p .calling) (hs : s.step c p .run = some s') :
    s'.At p .sleeping := by
  obtain ⟨f, hf, hph⟩ := h
  have hrun := run_of_step hf (by rw [hph]; decide) (by decide) hs
  cases hpc : f.pc <;> simp only [hpc, Pc.phase, reduceCtorEq] at hph <;>
    simp only [Sys.run, hpc, Sys.sleep, hc, Option.some.injEq] at hrun <;> subst hrun <;>
    exact ⟨_, Sys.goto_frame_self _ _ _ _, rfl⟩

/-- The turn store starts the busy wait and wakes nobody. -/
theorem at_waiting_of_giving [DecidableEq P] {c : Config P} {s s' : Sys P} {p : P}
    (h : s.At p .giving) (hs : s.step c p .run = some s') :
    s'.At p .waiting ∧ ∀ q, q ≠ p → s'.frame q = s.frame q := by
  obtain ⟨f, hf, hph⟩ := h
  have hrun := run_of_step hf (by rw [hph]; decide) (by decide) hs
  cases hpc : f.pc <;> simp only [hpc, Pc.phase, reduceCtorEq] at hph
  simp only [Sys.run, hpc, Option.some.injEq] at hrun
  subst hrun
  exact ⟨⟨_, Sys.goto_frame_self _ _ _ _, rfl⟩, fun q hq => Sys.goto_frame_of_ne _ hq _ _⟩

/-- With a blocking `sleep` the pair gets stuck by a step that joins a sleeper, and by no
other. -/
theorem not_stuck_iff_not_joinsSleeper (hc : c.sleep = .blocking) :
    (∀ s, (pairMachine c false).ReachWhen (fun s a => ¬s.JoinsSleeper a) s →
      ¬Stuck (pairMachine c false) s) ∧
    ∀ s a s', (pairMachine c false).Reachable s → (pairMachine c false).step s a = some s' →
      s.JoinsSleeper a → Stuck (pairMachine c false) s' := by
  refine ⟨fun s h => not_asleep_of_stuck ?_, ?_⟩
  · refine h.invariant
      (I := fun s => ∀ e : Side, ¬(s.At e .sleeping ∧ s.At e.other .waiting)) ?_ ?_
    · rintro s hinit e ⟨⟨f, hf, -⟩, -⟩
      rw [hinit.frame e] at hf
      cases hf
    · rintro s a s' - ih hC hs e ⟨hsl, hw⟩
      rcases joinsSleeper_of_step (pairMachine_step.mp hs).2 hsl hw with hold | hjoin
      · exact ih e hold
      · exact hC hjoin
  · rintro s ⟨p, a⟩ s' hreach hs ⟨ha, hjoin⟩
    obtain rfl : a = .run := ha
    have hreach' : (pairMachine c false).Reachable s' := hreach.step trivial hs
    have hs := (pairMachine_step.mp hs).2
    rcases hjoin with ⟨hcall, hwait⟩ | ⟨hgive, hsleep⟩
    · refine stuck_of_asleep_waiting hreach' (at_sleeping_of_calling hc hcall hs) ?_
      exact Sys.at_other_step hs (Side.other_ne p) (by decide) hwait
    · obtain ⟨hwait, hothers⟩ := at_waiting_of_giving hgive hs
      obtain ⟨f, hf, hph⟩ := hsleep
      refine stuck_of_asleep_waiting hreach' (e := p.other) ?_ (by simpa using hwait)
      exact ⟨f, (hothers p.other (Side.other_ne p)).trans hf, hph⟩

end Pair

/-- A writer alone in the section is in no stuck state, and none of its steps joins a
sleeper. -/
theorem not_stuck_one_writer : ∃ s, (pairMachine (pairProcs .blocking) false).ReachWhen
    (fun s a => ¬s.JoinsSleeper a) s ∧ s.At .zero .working ∧
      ¬Stuck (pairMachine (pairProcs .blocking) false) s := by
  have hjoin : ∀ {s : Sys Side} {a : PipeAct}, s.frame .one = none → ¬s.JoinsSleeper (.zero, a) := by
    rintro s a h ⟨-, ⟨-, f, hf, -⟩ | ⟨-, f, hf, -⟩⟩ <;>
      exact absurd (h.symm.trans hf) (by simp)
  have h0 := Machine.ReachWhen.init (M := pairMachine (pairProcs .blocking) false)
    (C := fun s a => ¬s.JoinsSleeper a) (freshPipe_init Side)
  have h1 := h0.step (a := (.zero, .call (.pipewrite 1))) (hjoin rfl) rfl
  have h2 := h1.step (a := (.zero, .run)) (hjoin rfl) rfl
  have h3 := h2.step (a := (.zero, .run)) (hjoin rfl) rfl
  have h4 := h3.step (a := (.zero, .run)) (hjoin rfl) rfl
  exact ⟨_, h4, ⟨_, rfl, rfl⟩, (not_stuck_iff_not_joinsSleeper rfl).1 _ h4⟩

/-- The reader finds the pipe empty and sleeps with its flag up; the writer then enters, and
waits for ever. -/
theorem reader_asleep_writer_stuck : ¬∀ s, (pairMachine (pairProcs .blocking) false).Reachable s →
    ¬Stuck (pairMachine (pairProcs .blocking) false) s := by
  obtain ⟨s, hs, hsl, hw⟩ := Machine.reachable_of_exec
    (M := pairMachine (pairProcs .blocking) false) (freshPipe_init Side)
    (List.flatten [[(.one, .call (.piperead 1))], runs 8 .one, [(.zero, .call (.pipewrite 1))],
      runs 2 .zero])
    (fun s => s.At .one .sleeping ∧ s.At .zero .waiting) (by decide +kernel)
  exact fun h => h s hs (stuck_of_asleep_waiting hs hsl hw)

/-! ## The lock that `sleep` releases -/

namespace Sys

variable [DecidableEq P]

/-- Every call of `sleep` about to be made passes a lock that the caller's CPU holds, and the
kernel has not stopped. -/
def SleepOk (c : Config P) (s : Sys P) : Prop :=
  (∀ p f chan lk, s.frame p = some f → f.pc.sleepArgs = some (chan, lk) →
    holding lk (c.mycpu p) = .ok true) ∧ s.fault = none

/-- The tests that lead to a call of `sleep` : of a writer that finds the pipe full, and of a
reader, not killed, that found it empty with the write end open. -/
def TakesSleep (s : Sys P) (a : P × PipeAct) : Prop :=
  a.2 = .run ∧ ∃ f, s.frame a.1 = some f ∧
    ((f.pc = .wNread ∧ f.x = s.pipe.nread + BitVec.ofNat 32 PIPESIZE) ∨
      (f.pc = .rKilled ∧ s.killed a.1 = false))

/-- The way to `sleep` starts at one of the two tests. -/
theorem run_takesSleep {c : Config P} {s s' : Sys P} {p : P} {f f' : Frame P}
    (hf : s.frame p = some f) (h : s.run c p f = some s') (h' : s'.frame p = some f')
    (hph : f.pc.phase = .working) (hph' : f'.pc.phase = .waking ∨ f'.pc.phase = .calling) :
    s.TakesSleep (p, .run) := by
  cases hpc : f.pc <;> simp only [hpc, Pc.phase, reduceCtorEq] at hph <;>
    simp only [run, hpc, Option.some.injEq, reduceCtorEq] at h <;> subst h
  case wNread =>
    rw [phase_goto _ _ _ _ h'] at hph'
    split_ifs at hph' with hx
    · exact ⟨rfl, f, hf, Or.inl ⟨hpc, hx⟩⟩
    · simp [Pc.phase] at hph'
  case rKilled =>
    rw [phase_goto _ _ _ _ h'] at hph'
    split_ifs at hph' with hk
    · simp [Pc.phase] at hph'
    · exact ⟨rfl, f, hf, Or.inr ⟨hpc, by simpa using hk⟩⟩
  case wLast | rLast | cWake =>
    rcases phase_wakeupLoop _ _ _ _ _ _ _ h' with h | ⟨todo, h⟩ <;> rw [h] at hph' <;>
      simp [Pc.phase] at hph'
  case exit => simp [leave] at h'
  all_goals
    rw [phase_goto _ _ _ _ h'] at hph'
    try split_ifs at hph'
    all_goals
      try simp only [Frame.phase_wHead, Frame.phase_rHead] at hph'
      simp [Pc.phase] at hph'

/-- Only a call of `sleep` stops the kernel. -/
theorem step_fault {c : Config P} {s s' : Sys P} {p : P} {a : PipeAct}
    (h : s.step c p a = some s') (hph : ¬s.At p .calling) : s'.fault = s.fault := by
  unfold step at h
  split_ifs at h
  split at h
  case h_1 op hf =>
    cases h
    rfl
  case h_2 f hf =>
    have hcall : f.pc.phase ≠ .calling := fun hc => hph ⟨f, hf, hc⟩
    cases hpc : f.pc <;> simp only [hpc, Pc.phase, ne_eq, not_true_eq_false] at hcall <;>
      simp only [run, hpc, Option.some.injEq, reduceCtorEq] at h <;> subst h
    case wWake | wLast | rLast | cWake => rw [wakeupLoop_eq]; rfl
    all_goals rfl
  case h_3 ch f hf =>
    split_ifs at h
    cases h
    cases ch <;> rfl
  case h_4 ok f hf =>
    split_ifs at h
    cases h
    cases ok <;> rfl
  case h_5 =>
    cases h
    rfl
  case h_6 => cases h

/-- Nobody is on the way to a sleep. -/
def Awake (s : Sys P) : Prop :=
  ∀ p, ¬s.At p .waking ∧ ¬s.At p .calling ∧ ¬s.At p .sleeping

theorem sleepArgs_phase {pc : Pc P} (h : pc.sleepArgs ≠ none) : pc.phase = .calling := by
  cases pc <;> simp_all [Pc.sleepArgs, Pc.phase]

theorem Awake.sleepOk {c : Config P} {s : Sys P} (h : s.Awake) (hfault : s.fault = none) :
    s.SleepOk c := by
  refine ⟨fun p f chan lk hf hargs => ?_, hfault⟩
  exact ((h p).2.1 ⟨f, hf, sleepArgs_phase (by simp [hargs])⟩).elim

/-- A step that takes neither branch sends nobody to sleep. -/
theorem Awake.step {c : Config P} {s s' : Sys P} {a : P × PipeAct} (h : s.Awake)
    (hs : s.step c a.1 a.2 = some s') (ht : ¬s.TakesSleep a) : s'.Awake := by
  obtain ⟨p, a⟩ := a
  intro q
  by_cases hq : q = p
  · subst hq
    have key : ∀ ph, ph = .waking ∨ ph = .calling → ¬s'.At q ph := by
      rintro ph hph hat
      rcases step_at hs hat with rfl | rfl | ⟨-, hat⟩ | ⟨rfl, ph₀, ⟨f, hf, hfp⟩, hn⟩
      · simp at hph
      · simp at hph
      · rcases hph with rfl | rfl
        · exact (h q).1 hat
        · exact (h q).2.1 hat
      · obtain ⟨f', hf', rfl⟩ := hat
        have hw : ph₀ = .working := by
          have h1 : ph₀ ≠ .waking := by
            rintro rfl
            exact (h q).1 ⟨f, hf, hfp⟩
          have h2 : ph₀ ≠ .calling := by
            rintro rfl
            exact (h q).2.1 ⟨f, hf, hfp⟩
          rcases hph with hph | hph <;> rw [hph] at hn <;> cases ph₀ <;> simp_all [Phase.next]
        have hrun : (s.touch f.pc).run c q f = some s' := by
          simp only [Sys.step, hf, Option.ite_none_left_eq_some] at hs
          exact hs.2
        exact ht (run_takesSleep (s := s.touch f.pc) hf hrun hf' (hfp.trans hw) hph)
    refine ⟨key _ (Or.inl rfl), key _ (Or.inr rfl), fun hat => ?_⟩
    rcases step_at hs hat with h0 | h0 | ⟨-, hat⟩ | ⟨-, ph₀, hat, hn⟩
    · cases h0
    · cases h0
    · exact (h q).2.2 hat
    · rw [(Phase.mem_next hn).1 rfl] at hat
      exact (h q).2.1 hat
  · exact ⟨fun hat => (h q).1 (step_at_other hs hq (by decide) hat),
      fun hat => (h q).2.1 (step_at_other hs hq (by decide) hat),
      fun hat => (h q).2.2 (step_at_other hs hq (by decide) hat)⟩

end Sys

section Lock

variable [DecidableEq P] {c : Config P}

/-- A call of `sleep` as written stops the kernel. -/
theorem fault_of_calling (hc : c.sleep = .source) {s : Sys P} {p : P} (h : s.At p .calling)
    (hfault : s.fault = none) :
    ∃ t, (pipeMachine c).Leads s t ∧ t.fault = some .nullDeref := by
  obtain ⟨f, hf, hph⟩ := h
  refine ⟨{ s.touch f.pc with fault := some .nullDeref }, .single ⟨(p, .run), ?_⟩, rfl⟩
  cases hpc : f.pc <;> simp only [hpc, Pc.phase, reduceCtorEq] at hph <;>
    simp [pipeMachine, Sys.step, hf, hfault, Sys.run, hpc, Sys.sleep, hc, release, holding, bind,
      Except.bind]

/-- A writer that found the pipe full calls `sleep` when its `wakeup` is through. -/
theorem calling_of_waking : ∀ (todo : List P) {s : Sys P} {p : P} {f : Frame P},
    s.frame p = some f → f.pc = .wWake todo → s.fault = none →
    ∃ t, (pipeMachine c).Leads s t ∧ t.At p .calling ∧ t.fault = none
  | [], s, p, f, hf, hpc, hfault => by
    refine ⟨(s.touch f.pc).goto p f .wSleep, .single ⟨(p, .run), ?_⟩,
      ⟨_, Sys.goto_frame_self _ _ _ _, rfl⟩, hfault⟩
    simp [pipeMachine, Sys.step, hf, hfault, Sys.run, hpc, Sys.wakeupLoop]
  | q :: todo, s, p, f, hf, hpc, hfault => by
    obtain ⟨t, ht, hat, hft⟩ := calling_of_waking todo
      (s := ((s.touch f.pc).wake p q .nread).goto p f (.wWake todo)) (p := p)
      (Sys.goto_frame_self _ _ _ _) rfl (by rw [Sys.wake_eq]; exact hfault)
    refine ⟨t, .head ⟨(p, .run), ?_⟩ ht, hat, hft⟩
    simp [pipeMachine, Sys.step, hf, hfault, Sys.run, hpc, Sys.wakeupLoop]

/-- With `sleep` as written, every call of it in a run that takes neither branch passes a
lock the caller holds, and the kernel goes on; whoever takes one of the branches can stop the
kernel. -/
theorem sleep_lock_iff_not_takesSleep (hc : c.sleep = .source) :
    (∀ s, (pipeMachine c).ReachWhen (fun s a => ¬s.TakesSleep a) s → s.SleepOk c) ∧
    ∀ s a s', (pipeMachine c).step s a = some s' → s.TakesSleep a →
      ∃ t, (pipeMachine c).Leads s' t ∧ t.fault = some .nullDeref := by
  refine ⟨fun s h => ?_, ?_⟩
  · have hinv : s.Awake ∧ s.fault = none := by
      refine h.invariant (I := fun s => s.Awake ∧ s.fault = none) ?_ ?_
      · intro s hinit
        have hat : ∀ p ph, ¬s.At p ph := by
          rintro p ph ⟨f, hf, -⟩
          rw [hinit.frame p] at hf
          cases hf
        exact ⟨fun p => ⟨hat p _, hat p _, hat p _⟩, hinit.fault⟩
      · rintro s a s' - ⟨hawake, hfault⟩ hC hs
        exact ⟨hawake.step hs hC, (Sys.step_fault hs (hawake a.1).2.1).trans hfault⟩
    exact hinv.1.sleepOk hinv.2
  · rintro s ⟨p, a⟩ s' hs ⟨ha, f, hf, hbranch⟩
    obtain rfl : a = .run := ha
    have hf : s.frame p = some f := hf
    simp only [pipeMachine, Sys.step, hf, Option.ite_none_left_eq_some] at hs
    obtain ⟨hfault, hs⟩ := hs
    have hfault : s.fault = none := by simpa using hfault
    rcases hbranch with ⟨hpc, hx⟩ | ⟨hpc, hk⟩
    · simp only [Sys.run, hpc, Sys.touch, hx, ite_true, Option.some.injEq] at hs
      subst hs
      obtain ⟨t, ht, hat, hft⟩ := calling_of_waking (c := c) c.table
        (s := (s.touch .wNread).goto p f (.wWake c.table)) (Sys.goto_frame_self _ _ _ _) rfl hfault
      obtain ⟨u, hu, hfu⟩ := fault_of_calling hc hat hft
      exact ⟨u, ht.trans hu, hfu⟩
    · have hk : s.killed p = false := hk
      simp only [Sys.run, hpc, Sys.touch, hk, Bool.false_eq_true, ite_false, Option.some.injEq] at hs
      subst hs
      exact fault_of_calling hc (p := p) ⟨_, Sys.goto_frame_self _ _ _ _, rfl⟩ hfault

end Lock

/-- A writer of one byte gets past its test for a full pipe, and no call of `sleep` goes
wrong. -/
theorem sleep_lock_one_writer : ∃ s, (pipeMachine (twoProcs .source)).ReachWhen
    (fun s a => ¬s.TakesSleep a) s ∧ s.frame 0 = some ⟨.pipewrite 1, 0, 0, 0, .wCopyin⟩ ∧
      s.SleepOk (twoProcs .source) := by
  have htake : ∀ {s : Sys (Fin 2)} {f : Frame (Fin 2)}, s.frame 0 = some f →
      ¬(f.pc = .wNread ∧ f.x = s.pipe.nread + BitVec.ofNat 32 PIPESIZE) → f.pc ≠ .rKilled →
      ¬s.TakesSleep (0, .run) := by
    rintro s f hf hw hr ⟨-, g, hg, hgw | hgr⟩ <;> obtain rfl := Option.some.inj (hf.symm.trans hg)
    · exact hw hgw
    · exact hr hgr.1
  have h0 := Machine.ReachWhen.init (M := pipeMachine (twoProcs .source))
    (C := fun s a => ¬s.TakesSleep a) (freshPipe_init (Fin 2))
  have h1 := h0.step (a := (0, .call (.pipewrite 1))) (fun h => by cases h.1) rfl
  have h2 := h1.step (a := (0, .run)) (htake rfl (by decide) (by decide)) rfl
  have h3 := h2.step (a := (0, .run)) (htake rfl (by decide) (by decide)) rfl
  have h4 := h3.step (a := (0, .run)) (htake rfl (by decide) (by decide)) rfl
  have h5 := h4.step (a := (0, .run)) (htake rfl (by decide) (by decide)) rfl
  have h6 := h5.step (a := (0, .run)) (htake rfl (by decide) (by decide)) rfl
  have h7 := h6.step (a := (0, .run)) (htake rfl (by decide) (by decide)) rfl
  have h8 := h7.step (a := (0, .run)) (htake rfl (by decide) (by decide)) rfl
  exact ⟨_, h8, rfl, (sleep_lock_iff_not_takesSleep rfl).1 _ h8⟩

/-- A reader that finds the pipe empty calls `sleep` with the null pointer, and the kernel
stops. -/
theorem reader_sleep_null : ¬∀ s, (pipeMachine (twoProcs .source)).Reachable s →
    s.SleepOk (twoProcs .source) := by
  obtain ⟨s, hs, hfault⟩ := Machine.reachable_of_exec (M := pipeMachine (twoProcs .source))
    (freshPipe_init (Fin 2)) ((0, .call (.piperead 1)) :: runs 8 0)
    (fun s => s.fault = some .nullDeref) (by decide +kernel)
  intro h
  rw [(h s hs).2] at hfault
  cases hfault

end Xv6
