import Xv6.SleepWakeup

/-!
# No wakeup is lost

The invariant of the protocol of `SleepWakeup`. Between its `release(lk)` and its `sched` a process is on its
way to sleep (`SleepSys.Going`) without the condition lock, but with its own. `wakeup` must take that lock, so it
cannot pass the process before it sleeps : the processes on their way to sleep on a channel, or asleep
on it, are among those the `wakeup` in progress has still to visit (`SleepSys.Sound.rest`). While it is in
progress it holds the condition lock, and no process can test the condition.
-/

set_option linter.unusedSectionVars false

namespace Xv6

open Function (update_self update_of_ne)

variable {P C L K : Type*} [DecidableEq P] [DecidableEq C] [DecidableEq L] [DecidableEq K]

namespace SleepSys

variable {V : CondVar P L K} {s s' : SleepSys P C L K} {a b : Agent P C} {m : SpinId P L}
  {pc pc' : SleepPc P L K} {p q : P} {c : C} {k : K}

/-- `p` tested the condition of `k`, and is in `sleep` with `lk` held. -/
def Heading (s : SleepSys P C L K) (p : P) (k : K) : Prop :=
  (s.pc (.thread p)).heading = some k

/-- `p` is asleep on `k`, or about to be, with `lk` released. -/
def Going (s : SleepSys P C L K) (p : P) (k : K) : Prop :=
  (s.pc (.thread p)).setting = some k ∨ (s.proc p).state = .sleeping ∧ (s.proc p).chan = some k

/-- The invariant of the sleepers. -/
structure Sound (s : SleepSys P C L K) (h : Waked P K) : Prop where
  asleep : ∀ p, (s.proc p).state = .sleeping → (s.pc (.thread p)).parked = true
  chan : ∀ p, (s.pc (.thread p)).inSleep = false → (s.proc p).chan = none
  rest : ∀ a k todo, (s.pc a).rest = some (k, todo) → ∀ p, s.Going p k → p ∈ todo
  heading : ∀ p k, s.Heading p k → s.cond k = false
  going : ∀ p k, s.Going p k → s.cond k = false ∨ ∃ a todo, (s.pc a).rest = some (k, todo)
  woke : ∀ k, h.woke k < h.now
  tested : ∀ p k, s.Heading p k ∨ s.Going p k → h.woke k < h.tested p

theorem Init.locks (h : s.Init) : s.Locks V := by
  obtain ⟨hlock, hcpu, hthread⟩ := h
  rintro m (p | c)
  · simp [hlock m, (hthread p).1, SleepPc.held]
  · simp [hlock m, hcpu c, SleepPc.held]

theorem Init.sound (h : s.Init) : s.Sound .start := by
  obtain ⟨-, hcpu, hthread⟩ := h
  have hrest : ∀ a, (s.pc a).rest = none := by
    rintro (p | c)
    · rw [(hthread p).1]
      rfl
    · rw [hcpu c]
      rfl
  have hheading : ∀ p k, ¬ s.Heading p k := fun p k hp => by
    simp [Heading, (hthread p).1, SleepPc.heading] at hp
  have hgoing : ∀ p k, ¬ s.Going p k := fun p k hp => by
    simp [Going, (hthread p).1, SleepPc.setting, (hthread p).2.1] at hp
  refine ⟨fun p hp => ?_, fun p _ => (hthread p).2.2, fun a k todo ha => ?_,
    fun p k hp => (hheading p k hp).elim, fun p k hp => (hgoing p k hp).elim,
    fun k => Nat.zero_lt_one, fun p k hp => (hp.elim (hheading p k) (hgoing p k)).elim⟩
  · rw [(hthread p).2.1] at hp
    cases hp
  · rw [hrest a] at ha
    cases ha

variable {h h' : Waked P K}

/-- A step after which fewer processes are in `sleep`, and every `wakeup` goes on and passes none that
is asleep. -/
theorem Sound.quiet (hi : s.Sound h)
    (hasleep : ∀ p, (s'.proc p).state = .sleeping → (s'.pc (.thread p)).parked = true)
    (hchan : ∀ p, (s'.pc (.thread p)).inSleep = false → (s'.proc p).chan = none)
    (hheading : ∀ p k, s'.Heading p k → s.Heading p k)
    (hgoing : ∀ p k, s'.Going p k → s.Going p k)
    (hrest : ∀ b k todo, (s'.pc b).rest = some (k, todo) →
      ∃ old, (s.pc b).rest = some (k, old) ∧ ∀ p, s'.Going p k → p ∈ old → p ∈ todo)
    (hwakers : ∀ b k todo, (s.pc b).rest = some (k, todo) → ∃ new, (s'.pc b).rest = some (k, new))
    (hcond : s'.cond = s.cond) (hlater : h.Later h') : s'.Sound h' where
  asleep := hasleep
  chan := hchan
  rest b k todo hb p hp := by
    obtain ⟨old, hold, hkept⟩ := hrest b k todo hb
    exact hkept p hp (hi.rest b k old hold p (hgoing p k hp))
  heading p k hp := by
    rw [hcond]
    exact hi.heading p k (hheading p k hp)
  going p k hp := by
    rw [hcond]
    exact (hi.going p k (hgoing p k hp)).imp_right fun ⟨b, todo, hb⟩ => ⟨b, hwakers b k todo hb⟩
  woke k := by
    rw [hlater.woke]
    exact Nat.lt_of_lt_of_le (hi.woke k) hlater.now
  tested p k hp := by
    rw [hlater.woke, hlater.tested]
    exact hi.tested p k (hp.imp (hheading p k) (hgoing p k))

/-- `a` goes on at a place that says the same of `sleep`; if it is in `wakeup`, it stays there, or
passes a process that is not asleep on the channel. -/
theorem Sound.move (hi : s.Sound h)
    (hstate : ∀ p, (s'.proc p).state = .sleeping → (s.proc p).state = .sleeping)
    (hchan : ∀ p, (s'.proc p).chan = (s.proc p).chan)
    (hcond : s'.cond = s.cond) (hpc : s'.pc = Function.update s.pc a pc)
    (hheading : pc.heading = none ∨ pc.heading = (s.pc a).heading) (hsetting : pc.setting = none)
    (hrest : pc.rest = (s.pc a).rest ∨ ∃ k q todo, (s.pc a).rest = some (k, q :: todo) ∧
      pc.rest = some (k, todo) ∧ ¬ s'.Going q k)
    (hparked : pc.parked = (s.pc a).parked ∨ ∀ p, a = .thread p → (s'.proc p).state ≠ .sleeping)
    (hin : pc.inSleep = (s.pc a).inSleep) (hlater : h.Later h') : s'.Sound h' := by
  have hsame : ∀ b, b ≠ a → s'.pc b = s.pc b := fun b hb => by rw [hpc, update_of_ne hb]
  have hself : s'.pc a = pc := by rw [hpc, update_self]
  refine hi.quiet (fun p hp => ?_) (fun p hp => ?_) (fun p k hp => ?_) (fun p k hp => ?_)
    (fun b k todo hb => ?_) (fun b k todo hb => ?_) hcond hlater
  · by_cases hb : Agent.thread p = a
    · obtain hparked | hnot := hparked
      · rw [hb, hself, hparked, ← hb]
        exact hi.asleep p (hstate p hp)
      · exact absurd hp (hnot p hb.symm)
    · rw [hsame _ hb]
      exact hi.asleep p (hstate p hp)
  · rw [hchan]
    by_cases hb : Agent.thread p = a
    · rw [hb, hself, hin, ← hb] at hp
      exact hi.chan p hp
    · rw [hsame _ hb] at hp
      exact hi.chan p hp
  · unfold Heading at hp ⊢
    by_cases hb : Agent.thread p = a
    · rw [hb, hself] at hp
      obtain hnone | hold := hheading
      · rw [hnone] at hp
        cases hp
      · rw [hb, ← hold]
        exact hp
    · rwa [hsame _ hb] at hp
  · unfold Going at hp ⊢
    rw [hchan] at hp
    refine hp.imp (fun hp => ?_) fun hp => ⟨hstate p hp.1, hp.2⟩
    by_cases hb : Agent.thread p = a
    · rw [hb, hself, hsetting] at hp
      cases hp
    · rwa [hsame _ hb] at hp
  · by_cases hba : b = a
    · subst hba
      rw [hself] at hb
      obtain hrest | ⟨k₁, q, todo₁, hold, hnew, hq⟩ := hrest
      · exact ⟨todo, hrest ▸ hb, fun _ _ => id⟩
      · obtain ⟨rfl, rfl⟩ := Prod.mk.inj (Option.some.inj (hnew.symm.trans hb))
        refine ⟨q :: todo₁, hold, fun p hp hmem => ?_⟩
        obtain rfl | hmem := List.mem_cons.mp hmem
        · exact absurd hp hq
        · exact hmem
    · rw [hsame b hba] at hb
      exact ⟨todo, hb, fun _ _ => id⟩
  · by_cases hba : b = a
    · subst hba
      rw [hself]
      obtain hrest | ⟨k₁, q, todo₁, hold, hnew, -⟩ := hrest
      · exact ⟨todo, hrest.trans hb⟩
      · obtain ⟨rfl, -⟩ := Prod.mk.inj (Option.some.inj (hold.symm.trans hb))
        exact ⟨todo₁, hnew⟩
    · rw [hsame b hba]
      exact ⟨todo, hb⟩

/-- A step of an agent that is neither in `sleep` nor in `wakeup`, before or after. -/
theorem Sound.pass (hi : s.Sound h) (hproc : s'.proc = s.proc) (hcond : s'.cond = s.cond)
    (hpc : s'.pc = Function.update s.pc a pc)
    (hheading : pc.heading = none ∨ pc.heading = (s.pc a).heading) (hsetting : pc.setting = none)
    (hlike : pc.Like (s.pc a)) (hlater : h.Later h') : s'.Sound h' :=
  hi.move (fun p => by rw [hproc]; exact id) (fun p => by rw [hproc]) hcond hpc hheading hsetting
    (Or.inl hlike.rest) (Or.inl hlike.parked) hlike.inSleep hlater

/-- A thread outside `sched` is not asleep. -/
theorem Sound.awake (hi : s.Sound h) (hpc : (s.pc (.thread p)).parked = false) :
    (s.proc p).state ≠ .sleeping := fun hp => by
  rw [hi.asleep p hp] at hpc
  cases hpc

theorem thread_ne (hne : q ≠ p) : (Agent.thread q : Agent P C) ≠ .thread p := fun heq =>
  hne (Agent.thread.inj heq)

/-- While `a` holds the condition lock, no other agent is in `sleep` with it. -/
theorem Locks.not_heading (hl : s.Locks V) (hm : .cond (V.lk k) ∈ (s.pc a).held V a)
    (ha : (s.pc a).heading = none) (p : P) : ¬ s.Heading p k := fun hp => by
  have hheld := SleepPc.cond_mem_held_of_heading (V := V) (a := (.thread p : Agent P C)) hp
  obtain rfl := hl.eq hheld hm
  rw [Heading, ha] at hp
  cases hp

/-- A thread that stays where it is. -/
theorem going_iff (hproc : s'.proc q = s.proc q) (hpc : s'.pc (.thread q) = s.pc (.thread q)) :
    s'.Going q k ↔ s.Going q k := by
  unfold Going
  rw [hproc, hpc]

theorem heading_iff (hpc : s'.pc (.thread q) = s.pc (.thread q)) :
    s'.Heading q k ↔ s.Heading q k := by
  unfold Heading
  rw [hpc]

/-- The thread of `p`, which was not in `sched`, goes on in `sleep` on `k`. -/
theorem Sound.enter (hi : s.Sound h) (hproc : s'.proc = s.proc) (hcond : s'.cond = s.cond)
    (hpc : s'.pc = Function.update s.pc (.thread p) pc)
    (hparked : (s.pc (.thread p)).parked = false) (hin : (s.pc (.thread p)).inSleep = false)
    (hwake : (s.pc (.thread p)).rest = none) (hrest : pc.rest = none)
    (hthis : ∀ k', pc.heading = some k' ∨ pc.setting = some k' → k' = k)
    (hfalse : s.cond k = false)
    (hwakers : pc.setting = some k → ∀ b todo, (s.pc b).rest ≠ some (k, todo))
    (hnow : h.now ≤ h'.now) (hwoke : h'.woke = h.woke) (htested : h.woke k < h'.tested p)
    (hothers : ∀ q, q ≠ p → h'.tested q = h.tested q) : s'.Sound h' := by
  have hawake := hi.awake hparked
  have hself : s'.pc (.thread p) = pc := by rw [hpc, update_self]
  have hsame : ∀ b, b ≠ .thread p → s'.pc b = s.pc b := fun b hb => by
    rw [hpc, update_of_ne hb]
  have hheading : ∀ q k', s'.Heading q k' → q = p ∧ k' = k ∨ q ≠ p ∧ s.Heading q k' := by
    intro q k' hq
    by_cases hqp : q = p
    · subst hqp
      exact Or.inl ⟨rfl, hthis k' (Or.inl (hself ▸ hq))⟩
    · exact Or.inr ⟨hqp, (heading_iff (hsame _ (thread_ne hqp))).mp hq⟩
  have hgoing : ∀ q k', s'.Going q k' →
      q = p ∧ k' = k ∧ pc.setting = some k ∨ q ≠ p ∧ s.Going q k' := by
    intro q k' hq
    by_cases hqp : q = p
    · subst hqp
      obtain hset | hsleep := hq
      · rw [hself] at hset
        obtain rfl := hthis k' (Or.inr hset)
        exact Or.inl ⟨rfl, rfl, hset⟩
      · rw [hproc] at hsleep
        exact absurd hsleep.1 hawake
    · exact Or.inr ⟨hqp, (going_iff (by rw [hproc]) (hsame _ (thread_ne hqp))).mp hq⟩
  have hrests : ∀ b, (s'.pc b).rest = (s.pc b).rest := by
    intro b
    by_cases hb : b = .thread p
    · rw [hb, hself, hrest, hwake]
    · rw [hsame b hb]
  refine ⟨fun q hq => ?_, fun q hq => ?_, fun b k' todo hb q hq => ?_, fun q k' hq => ?_,
    fun q k' hq => ?_, fun k' => ?_, fun q k' hq => ?_⟩
  · rw [hproc] at hq
    have hqp : q ≠ p := fun heq => hawake (heq ▸ hq)
    rw [hsame _ (thread_ne hqp)]
    exact hi.asleep q hq
  · rw [hproc]
    by_cases hqp : q = p
    · exact hqp ▸ hi.chan p hin
    · rw [hsame _ (thread_ne hqp)] at hq
      exact hi.chan q hq
  · rw [hrests] at hb
    obtain ⟨-, rfl, hset⟩ | ⟨-, hq⟩ := hgoing q k' hq
    · exact absurd hb (hwakers hset b todo)
    · exact hi.rest b k' todo hb q hq
  · rw [hcond]
    obtain ⟨-, rfl⟩ | ⟨-, hq⟩ := hheading q k' hq
    · exact hfalse
    · exact hi.heading q k' hq
  · rw [hcond]
    obtain ⟨-, rfl, -⟩ | ⟨-, hq⟩ := hgoing q k' hq
    · exact Or.inl hfalse
    · exact (hi.going q k' hq).imp_right fun ⟨b, todo, hb⟩ => ⟨b, todo, (hrests b).trans hb⟩
  · rw [hwoke]
    exact Nat.lt_of_lt_of_le (hi.woke k') hnow
  · rw [hwoke]
    have hold : ∀ {q}, q ≠ p → s.Heading q k' ∨ s.Going q k' → h.woke k' < h'.tested q :=
      fun hqp hq => by
        rw [hothers _ hqp]
        exact hi.tested _ k' hq
    obtain hq | hq := hq
    · obtain ⟨rfl, rfl⟩ | ⟨hqp, hq⟩ := hheading q k' hq
      · exact htested
      · exact hold hqp (Or.inl hq)
    · obtain ⟨rfl, rfl, -⟩ | ⟨hqp, hq⟩ := hgoing q k' hq
      · exact htested
      · exact hold hqp (Or.inr hq)

/-- `p` finds that the condition does not hold, and calls `sleep`. -/
theorem Sound.wait (hi : s.Sound h) {l : L} (hpc : s.pc (.thread p) = .inside l)
    (hcond : s.cond k = false) :
    (s.goto (.thread p) (.sleepAcquire k)).Sound (h.tick s (.thread p, .wait k)) := by
  refine hi.enter (k := k) rfl rfl rfl (by rw [hpc]; rfl) (by rw [hpc]; rfl) (by rw [hpc]; rfl) rfl
    (fun k' hk => ?_) hcond (fun hset => by cases hset) (Nat.le_succ _) rfl ?_ fun q hqp => ?_
  · obtain hk | hk := hk
    · exact (Option.some.inj hk).symm
    · cases hk
  · change h.woke k < Function.update h.tested p h.now p
    rw [update_self]
    exact hi.woke k
  · exact update_of_ne hqp ..

/-- `sleep` releases the condition lock. -/
theorem Sound.unlock (hi : s.Sound h) (hl : s.Locks V) (hpc : s.pc (.thread p) = .sleepRelease k)
    (hlater : h.Later h') :
    (s.release (.thread p) (.cond (V.lk k)) (.sleepSet k)).Sound h' := by
  have hold : s.Heading p k := by
    rw [Heading, hpc]
    rfl
  refine hi.enter (k := k) rfl rfl rfl (by rw [hpc]; rfl) (by rw [hpc]; rfl) (by rw [hpc]; rfl) rfl
    (fun k' hk => ?_) (hi.heading p k hold) (fun _ b todo hb => ?_) hlater.now hlater.woke ?_
    fun q _ => congrFun hlater.tested q
  · obtain hk | hk := hk
    · cases hk
    · exact (Option.some.inj hk).symm
  · -- both the `wakeup` and `p` would hold the condition lock
    have hheld := SleepPc.cond_mem_held_of_rest (V := V) (a := b) hb
    obtain rfl := hl.eq hheld (by rw [hpc]; exact List.mem_cons_self)
    rw [hpc] at hb
    cases hb
  · rw [hlater.tested]
    exact hi.tested p k (Or.inl hold)

/-- The thread of `p` changes the fields of `p`. -/
theorem Sound.own (hi : s.Sound h) {r : Sleeper K} (hproc : s'.proc = Function.update s.proc p r)
    (hcond : s'.cond = s.cond) (hpc : s'.pc = Function.update s.pc (.thread p) pc)
    (hasleep : r.state = .sleeping → pc.parked = true) (hchan : pc.inSleep = false → r.chan = none)
    (hheading : pc.heading = none) (hsetting : pc.setting = none)
    (hgoing : ∀ k', r.state = .sleeping → r.chan = some k' → s.Going p k')
    (hwake : (s.pc (.thread p)).rest = none) (hrest : pc.rest = none) (hlater : h.Later h') :
    s'.Sound h' := by
  have hself : s'.pc (.thread p) = pc ∧ s'.proc p = r := by
    rw [hpc, hproc, update_self, update_self]
    exact ⟨rfl, rfl⟩
  have hsame : ∀ b, b ≠ .thread p → s'.pc b = s.pc b := fun b hb => by
    rw [hpc, update_of_ne hb]
  have hother : ∀ q, q ≠ p → s'.proc q = s.proc q ∧ s'.pc (.thread q) = s.pc (.thread q) :=
    fun q hq => ⟨by rw [hproc, update_of_ne hq], hsame _ (thread_ne hq)⟩
  have hrests : ∀ b, (s'.pc b).rest = (s.pc b).rest := by
    intro b
    by_cases hb : b = .thread p
    · rw [hb, hself.1, hrest, hwake]
    · rw [hsame b hb]
  refine hi.quiet (fun q hq => ?_) (fun q hq => ?_) (fun q k' hq => ?_) (fun q k' hq => ?_)
    (fun b k' todo hb => ⟨todo, hrests b ▸ hb, fun _ _ => id⟩)
    (fun b k' todo hb => ⟨todo, (hrests b).trans hb⟩) hcond hlater
  · by_cases hqp : q = p
    · subst hqp
      rw [hself.2] at hq
      rw [hself.1]
      exact hasleep hq
    · rw [(hother q hqp).1] at hq
      rw [(hother q hqp).2]
      exact hi.asleep q hq
  · by_cases hqp : q = p
    · subst hqp
      rw [hself.1] at hq
      rw [hself.2]
      exact hchan hq
    · rw [(hother q hqp).2] at hq
      rw [(hother q hqp).1]
      exact hi.chan q hq
  · by_cases hqp : q = p
    · subst hqp
      rw [Heading, hself.1, hheading] at hq
      cases hq
    · exact (heading_iff (hother q hqp).2).mp hq
  · by_cases hqp : q = p
    · subst hqp
      rw [Going, hself.1, hself.2, hsetting] at hq
      obtain hq | hq := hq
      · cases hq
      · exact hgoing k' hq.1 hq.2
    · exact (going_iff (hother q hqp).1 (hother q hqp).2).mp hq

/-- A `wakeup` has visited every process, and returns : no process sleeps on the channel, or is about to. -/
theorem Sound.woken (hi : s.Sound h) (hl : s.Locks V) (hpc : s.pc a = .wake k []) :
    (s.goto a (.inside (V.lk k))).Sound (h.tick s (a, .go)) := by
  have hnone : ∀ p, ¬ s.Heading p k ∧ ¬ s.Going p k := by
    intro p
    refine ⟨hl.not_heading (a := a) (by rw [hpc]; exact List.mem_singleton_self _) (by rw [hpc]; rfl) p,
      fun hp => ?_⟩
    · have hmem := hi.rest a k [] (by rw [hpc]; rfl) p hp
      cases hmem
  have hself : (s.goto a (.inside (V.lk k))).pc a = .inside (V.lk k) := update_self ..
  have hsame : ∀ b, b ≠ a → (s.goto a (.inside (V.lk k))).pc b = s.pc b :=
    fun b hb => update_of_ne hb ..
  have hwoke : (h.tick s (a, .go)).woke = Function.update h.woke k h.now := by
    simp [Waked.tick, hpc]
  have hnot : ∀ q, Agent.thread q = a → s.pc (.thread q) = .wake k [] := fun q hq => hq ▸ hpc
  have hheading : ∀ q k', (s.goto a (.inside (V.lk k))).Heading q k' → s.Heading q k' := by
    intro q k' hq
    by_cases hqa : Agent.thread q = a
    · rw [Heading, hqa, hself] at hq
      cases hq
    · exact (heading_iff (hsame _ hqa)).mp hq
  have hgoing : ∀ q k', (s.goto a (.inside (V.lk k))).Going q k' → s.Going q k' := by
    intro q k' hq
    by_cases hqa : Agent.thread q = a
    · rw [Going, hqa, hself] at hq
      exact Or.inr (hq.resolve_left (by simp [SleepPc.setting]))
    · have hproc : (s.goto a (.inside (V.lk k))).proc q = s.proc q := rfl
      exact (going_iff hproc (hsame _ hqa)).mp hq
  refine ⟨fun q hq => ?_, fun q hq => ?_, fun b k' todo hb q hq => ?_,
    fun q k' hq => hi.heading q k' (hheading q k' hq), fun q k' hq => ?_, fun k' => ?_,
    fun q k' hq => ?_⟩
  · by_cases hqa : Agent.thread q = a
    · exact absurd hq (hi.awake (by rw [hnot q hqa]; rfl))
    · rw [hsame _ hqa]
      exact hi.asleep q hq
  · by_cases hqa : Agent.thread q = a
    · exact hi.chan q (by rw [hnot q hqa]; rfl)
    · rw [hsame _ hqa] at hq
      exact hi.chan q hq
  · by_cases hba : b = a
    · rw [hba, hself] at hb
      cases hb
    · rw [hsame b hba] at hb
      exact hi.rest b k' todo hb q (hgoing q k' hq)
  · refine (hi.going q k' (hgoing q k' hq)).imp_right fun ⟨b, todo, hb⟩ => ⟨b, todo, ?_⟩
    by_cases hba : b = a
    · rw [hba, hpc] at hb
      obtain ⟨rfl, -⟩ := Prod.mk.inj (Option.some.inj hb)
      exact absurd (hgoing q k hq) (hnone q).2
    · rwa [hsame b hba]
  · rw [hwoke]
    by_cases hk : k' = k
    · rw [hk, update_self]
      exact Nat.lt_succ_self _
    · rw [update_of_ne hk]
      exact Nat.lt_succ_of_lt (hi.woke k')
  · have hold := hq.imp (hheading q k') (hgoing q k')
    rw [hwoke]
    by_cases hk : k' = k
    · subst hk
      exact (hold.elim (hnone q).1 (hnone q).2).elim
    · rw [update_of_ne hk]
      exact hi.tested q k' hold

/-- The condition of `k` changes under its lock, and `wakeup` is called. -/
theorem Sound.signal (hi : s.Sound h) (hl : s.Locks V) (hpc : s.pc a = .inside (V.lk k)) (v : Bool)
    (hlater : h.Later h') :
    ({ s with cond := Function.update s.cond k v }.goto a (.wake k V.table)).Sound h' := by
  have hnone := hl.not_heading (a := a) (k := k) (by rw [hpc]; exact List.mem_singleton_self _)
    (by rw [hpc]; rfl)
  have hsame : ∀ b, b ≠ a → Function.update s.pc a (.wake k V.table) b = s.pc b :=
    fun b hb => update_of_ne hb ..
  have hstays : ∀ b (f : SleepPc P L K → Bool), f (.wake k V.table) = f (.inside (V.lk k)) →
      f (Function.update s.pc a (.wake k V.table) b) = f (s.pc b) := by
    intro b f hf
    by_cases hb : b = a
    · rw [hb, update_self, hf, hpc]
    · rw [hsame b hb]
  have hheading : ∀ q k', (Function.update s.pc a (.wake k V.table) (.thread q)).heading = some k' →
      s.Heading q k' := by
    intro q k' hq
    by_cases hqa : Agent.thread q = a
    · rw [hqa, update_self] at hq
      cases hq
    · rwa [hsame _ hqa] at hq
  have hgoing : ∀ q k', ({ s with cond := Function.update s.cond k v }.goto a
      (.wake k V.table)).Going q k' → s.Going q k' := by
    intro q k' hq
    refine hq.imp_left fun hset => ?_
    by_cases hqa : Agent.thread q = a
    · simp [goto, hqa, SleepPc.setting] at hset
    · simpa [goto, hqa] using hset
  refine ⟨fun q hq => ?_, fun q hq => ?_, fun b k' todo hb q hq => ?_, fun q k' hq => ?_,
    fun q k' hq => ?_, fun k' => ?_, fun q k' hq => ?_⟩
  · exact (hstays _ SleepPc.parked rfl).trans (hi.asleep q hq)
  · exact hi.chan q ((hstays _ SleepPc.inSleep rfl).symm.trans hq)
  · by_cases hba : b = a
    · simp only [goto, hba, update_self, SleepPc.rest, Option.some.injEq, Prod.mk.injEq] at hb
      exact hb.2 ▸ V.mem_table q
    · simp only [goto, hsame b hba] at hb
      exact hi.rest b k' todo hb q (hgoing q k' hq)
  · have hq := hheading q k' hq
    have hk : k' ≠ k := fun hk => hnone q (hk ▸ hq)
    simpa [goto, hk] using hi.heading q k' hq
  · by_cases hk : k' = k
    · exact Or.inr ⟨a, V.table, by simp [goto, hk, SleepPc.rest]⟩
    · obtain hfalse | ⟨b, todo, hb⟩ := hi.going q k' (hgoing q k' hq)
      · exact Or.inl (by simpa [goto, hk] using hfalse)
      · have hba : b ≠ a := by
          rintro rfl
          rw [hpc] at hb
          cases hb
        exact Or.inr ⟨b, todo, by simpa [goto, hba] using hb⟩
  · rw [hlater.woke]
    exact Nat.lt_of_lt_of_le (hi.woke k') hlater.now
  · rw [hlater.woke, hlater.tested]
    exact hi.tested q k' (hq.imp (hheading q k') (hgoing q k'))

/-- The condition of `k` no longer holds. -/
theorem Sound.consume (hi : s.Sound h) (hlater : h.Later h') :
    ({ s with cond := Function.update s.cond k false } : SleepSys P C L K).Sound h' := by
  have hfalse : ∀ k', s.cond k' = false → Function.update s.cond k false k' = false := by
    intro k' hk
    by_cases hkk : k' = k
    · rw [hkk, update_self]
    · rwa [update_of_ne hkk]
  refine ⟨hi.asleep, hi.chan, hi.rest, fun q k' hq => hfalse k' (hi.heading q k' hq),
    fun q k' hq => (hi.going q k' hq).imp_left (hfalse k'), fun k' => ?_, fun q k' hq => ?_⟩
  · rw [hlater.woke]
    exact Nat.lt_of_lt_of_le (hi.woke k') hlater.now
  · rw [hlater.woke, hlater.tested]
    exact hi.tested q k' hq

/-- `wakeup` visits a process whose lock it holds. -/
theorem Sound.visit (hi : s.Sound h) (hl : s.Locks V) {todo : List P}
    (hpc : s.pc a = .waking k q todo) (hlater : h.Later h') :
    ((s.setProc q ((s.proc q).wakeup k)).goto a (.waken k q todo)).Sound h' := by
  have hwakeup : ∀ p, (Function.update s.proc q ((s.proc q).wakeup k) p).chan = (s.proc p).chan ∧
      ((Function.update s.proc q ((s.proc q).wakeup k) p).state = .sleeping →
        (s.proc p).state = .sleeping ∧ (p = q → (s.proc p).chan ≠ some k)) := by
    intro p
    by_cases hp : p = q
    · subst hp
      rw [update_self, Sleeper.wakeup]
      split_ifs with hs
      · exact ⟨rfl, fun h => by cases h⟩
      · exact ⟨rfl, fun h => ⟨h, fun _ hk => hs ⟨h, hk⟩⟩⟩
    · rw [update_of_ne hp]
      exact ⟨rfl, fun h => ⟨h, fun heq => absurd heq hp⟩⟩
  refine hi.move (fun p hp => ((hwakeup p).2 hp).1) (fun p => (hwakeup p).1) rfl rfl (Or.inl rfl) rfl
    (Or.inr ⟨k, q, todo, by rw [hpc]; rfl, rfl, ?_⟩) (Or.inl (by rw [hpc]; rfl)) (by rw [hpc]; rfl)
    hlater
  rintro (hset | ⟨hsleep, hchan⟩)
  · -- `q` would hold its own lock
    by_cases hqa : Agent.thread q = a
    · simp [goto, hqa, SleepPc.setting] at hset
    · have hset : (s.pc (.thread q)).setting = some k := by simpa [goto, setProc, hqa] using hset
      have hheld := SleepPc.proc_mem_held_of_setting (V := V) (C := C) (p := q) hset
      exact hqa (hl.eq hheld (by rw [hpc]; exact List.mem_cons_self))
  · exact ((hwakeup q).2 hsleep).2 rfl ((hwakeup q).1 ▸ hchan)

/-- kkill changes a process whose lock it holds. -/
theorem Sound.kill (hi : s.Sound h) (hpc : s.pc a = .killing q) (hlater : h.Later h') :
    ((s.setProc q (s.proc q).kkill).goto a (.killed q)).Sound h' := by
  have hkill : ∀ p, (Function.update s.proc q (s.proc q).kkill p).chan = (s.proc p).chan ∧
      ((Function.update s.proc q (s.proc q).kkill p).state = .sleeping →
        (s.proc p).state = .sleeping) := by
    intro p
    by_cases hp : p = q
    · subst hp
      rw [update_self, Sleeper.kkill]
      refine ⟨rfl, fun h => ?_⟩
      dsimp only at h
      split_ifs at h
      exact h
    · rw [update_of_ne hp]
      exact ⟨rfl, id⟩
  exact hi.move (fun p => (hkill p).2) (fun p => (hkill p).1) rfl rfl (Or.inl rfl) rfl
    (Or.inl (by rw [hpc]; rfl)) (Or.inl (by rw [hpc]; rfl)) (by rw [hpc]; rfl) hlater

/-- The scheduler gives the CPU to `p`, whose lock it holds. -/
theorem Sound.resume (hi : s.Sound h) (hpc : s.pc (.cpu c) = .picked p)
    (hs : s.resume c p = some s') (hlater : h.Later h') : s'.Sound h' := by
  have hstate : ∀ q, (Function.update s.proc p { s.proc p with state := .running } q).chan =
      (s.proc q).chan ∧ ((Function.update s.proc p { s.proc p with state := .running } q).state =
        .sleeping → (s.proc q).state = .sleeping) := by
    intro q
    by_cases hq : q = p
    · subst hq
      simp
    · rw [update_of_ne hq]
      exact ⟨rfl, id⟩
  have hcpu : ((({ s with lock := Function.update s.lock (.proc p) (some (.thread p)) }.setProc p
      { s.proc p with state := .running }).goto (.cpu c) (.running p)) : SleepSys P C L K).Sound h' :=
    hi.move (fun q => (hstate q).2) (fun q => (hstate q).1) rfl rfl (Or.inl rfl) rfl
      (Or.inl (by rw [hpc]; rfl)) (Or.inl (by rw [hpc]; rfl)) (by rw [hpc]; rfl) hlater
  have hawake : ∀ q, Agent.thread p = (.thread q : Agent P C) →
      (Function.update s.proc p { s.proc p with state := .running } q).state ≠ .sleeping := by
    rintro q hq
    obtain rfl := Agent.thread.inj hq
    simp
  unfold SleepSys.resume at hs
  dsimp only at hs
  split at hs <;> cases hs
  all_goals
    next hk =>
    exact hcpu.move (fun _ => id) (fun _ => rfl) rfl rfl (Or.inl rfl) rfl
      (Or.inl (by simp [goto, setProc, hk, SleepPc.rest])) (Or.inr hawake)
      (by simp [goto, setProc, hk, SleepPc.inSleep]) (.refl h')

theorem Locks.resume (hl : s.Locks V) (hpc : s.pc (.cpu c) = .picked p)
    (hs : s.resume c p = some s') : s'.Locks V := by
  have hm : SpinId.proc p ∈ (s.pc (.cpu c)).held V (.cpu c) := by
    rw [hpc]
    exact List.mem_singleton_self _
  unfold SleepSys.resume at hs
  dsimp only at hs
  split at hs <;> cases hs
  all_goals
    next hk =>
    refine hl.hand (a := .cpu c) (b := .thread p) (by simp) hm rfl rfl (fun x => ?_) fun x => ?_
    · simp [hpc, SleepPc.held]
    · simp [hk, SleepPc.held, Agent.self]

/-- `sched` gives the CPU back to the scheduler. -/
theorem Sound.swtch (hi : s.Sound h) {o : Option K} (hpc : s.pc (.thread p) = .sched o)
    (hs : s.swtch c p o = some s') (hlater : h.Later h') : s'.Sound h' := by
  unfold SleepSys.swtch at hs
  split at hs
  · next q hq =>
    obtain ⟨rfl, rfl⟩ := of_guard hs
    have haway : ({ s with lock := Function.update s.lock (.proc q) (some (.cpu c)) }.goto (.thread q)
        (.away o)).Sound h' := by
      refine hi.pass rfl rfl rfl (Or.inl rfl) rfl ?_ hlater
      rw [hpc]
      cases o <;> exact ⟨rfl, rfl, rfl⟩
    have hcpu : ({ s with lock := Function.update s.lock (.proc q) (some (.cpu c)) }.goto (.thread q)
        (.away o)).pc (.cpu c) = .running q := by simp [goto, hq]
    exact haway.pass rfl rfl rfl (Or.inl rfl) rfl (by rw [hcpu]; exact ⟨rfl, rfl, rfl⟩) (.refl h')
  · cases hs

theorem Locks.swtch (hl : s.Locks V) {o : Option K} (hpc : s.pc (.thread p) = .sched o)
    (hs : s.swtch c p o = some s') : s'.Locks V := by
  unfold SleepSys.swtch at hs
  split at hs
  · next q hq =>
    obtain ⟨rfl, rfl⟩ := of_guard hs
    refine hl.hand (a := .thread q) (b := .cpu c) (by simp) ?_ rfl rfl (fun x => ?_) fun x => ?_
    · rw [hpc]
      exact List.mem_singleton_self _
    · simp [hpc, SleepPc.held, Agent.self]
    · simp [hq, SleepPc.held]
  · cases hs

/-! ## Every step -/

/-- `a` goes on at a place that says the same of `sleep` and `wakeup`. -/
theorem goto_keeps {pc₀ : SleepPc P L K} (hi : s.Sound h) (hl : s.Locks V) (hpc : s.pc a = pc₀)
    (hheld : pc.held V a = pc₀.held V a) (hheading : pc.heading = none) (hsetting : pc.setting = none)
    (hlike : pc.Like pc₀) (hlater : h.Later h') : (s.goto a pc).Locks V ∧ (s.goto a pc).Sound h' := by
  subst hpc
  exact ⟨hl.goto rfl rfl hheld, hi.pass rfl rfl rfl (Or.inl hheading) hsetting hlike hlater⟩

theorem acquire_keeps {pc₀ : SleepPc P L K} (hi : s.Sound h) (hl : s.Locks V) (hpc : s.pc a = pc₀)
    (hs : s.acquire a m pc = some s') (hheld : (pc.held V a).Perm (m :: pc₀.held V a))
    (hheading : pc.heading = none ∨ pc.heading = pc₀.heading) (hsetting : pc.setting = none)
    (hlike : pc.Like pc₀) (hlater : h.Later h') : s'.Locks V ∧ s'.Sound h' := by
  subst hpc
  obtain ⟨hfree, rfl⟩ := of_guard hs
  exact ⟨hl.acquire hfree rfl rfl fun x => hheld.mem_iff.trans List.mem_cons,
    hi.pass rfl rfl rfl hheading hsetting hlike hlater⟩

theorem release_keeps {pc₀ : SleepPc P L K} (hi : s.Sound h) (hl : s.Locks V) (hpc : s.pc a = pc₀)
    (hheld : pc₀.held V a = m :: pc.held V a) (hm : m ∉ pc.held V a)
    (hheading : pc.heading = none) (hsetting : pc.setting = none) (hlike : pc.Like pc₀)
    (hlater : h.Later h') : (s.release a m pc).Locks V ∧ (s.release a m pc).Sound h' := by
  subst hpc
  refine ⟨hl.release (hheld ▸ List.mem_cons_self) rfl rfl fun x => ?_,
    hi.pass rfl rfl rfl (Or.inl hheading) hsetting hlike hlater⟩
  rw [hheld, List.mem_cons]
  exact ⟨fun hx => ⟨fun heq => hm (heq ▸ hx), Or.inr hx⟩, fun hx => hx.2.resolve_left hx.1⟩

/-- The next step of a thread that is in `sleep` or `yield`. -/
theorem thread_keeps (hi : s.Sound h) (hl : s.Locks V) (hs : s.go V (.thread p) = some s')
    (hcommon : (s.pc (.thread p)).common = false) (hlater : h.Later h') :
    s'.Locks V ∧ s'.Sound h' := by
  have hrest : (s.pc (.thread p)).rest = none := SleepPc.rest_of_common hcommon
  cases hpc : s.pc (.thread p) with
  | sleepAcquire k =>
    simp only [go, hpc] at hs
    exact acquire_keeps hi hl hpc hs (.swap ..) (Or.inr rfl) rfl ⟨rfl, rfl, rfl⟩ hlater
  | sleepRelease k =>
    simp only [go, hpc] at hs
    cases hs
    refine ⟨hl.release (by rw [hpc]; exact List.mem_cons_self) rfl rfl fun x => ?_,
      hi.unlock hl hpc hlater⟩
    rw [hpc]
    cases x <;> simp [SleepPc.held, Agent.self]
  | sleepSet k =>
    simp only [go, hpc] at hs
    cases hs
    refine ⟨hl.goto rfl rfl (by rw [hpc]; rfl), hi.own rfl rfl rfl (fun _ => rfl)
      (fun hin => by cases hin) rfl rfl (fun k' _ hk => ?_) hrest rfl hlater⟩
    cases hk
    exact Or.inl (by rw [hpc]; rfl)
  | sleepBack k =>
    simp only [go, hpc] at hs
    cases hs
    have hawake := hi.awake (p := p) (by rw [hpc]; rfl)
    exact ⟨hl.goto rfl rfl (by rw [hpc]; rfl), hi.own rfl rfl rfl (fun hq => absurd hq hawake)
      (fun _ => rfl) rfl rfl (fun k' _ hk => by cases hk) hrest rfl hlater⟩
  | sleepUnlock k =>
    simp only [go, hpc] at hs
    cases hs
    exact release_keeps hi hl hpc rfl List.not_mem_nil rfl rfl ⟨rfl, rfl, rfl⟩ hlater
  | sleepRelock k =>
    simp only [go, hpc] at hs
    exact acquire_keeps hi hl hpc hs (.refl _) (Or.inl rfl) rfl ⟨rfl, rfl, rfl⟩ hlater
  | yield =>
    simp only [go, hpc] at hs
    exact acquire_keeps hi hl hpc hs (.refl _) (Or.inl rfl) rfl ⟨rfl, rfl, rfl⟩ hlater
  | yieldSet =>
    simp only [go, hpc] at hs
    cases hs
    exact ⟨hl.goto rfl rfl (by rw [hpc]; rfl), hi.own rfl rfl rfl (fun hq => by cases hq)
      (fun _ => hi.chan p (by rw [hpc]; rfl)) rfl rfl (fun k' hq => by cases hq) hrest rfl hlater⟩
  | yieldBack =>
    simp only [go, hpc] at hs
    cases hs
    exact release_keeps hi hl hpc rfl List.not_mem_nil rfl rfl ⟨rfl, rfl, rfl⟩ hlater
  | kill | killing | killed | wake | waking | waken =>
    rw [hpc] at hcommon
    cases hcommon
  | _ => simp [go, hpc] at hs

/-- The next step of a scheduler. -/
theorem cpu_keeps (hi : s.Sound h) (hl : s.Locks V) (hs : s.go V (.cpu c) = some s')
    (hcommon : (s.pc (.cpu c)).common = false) (hlater : h.Later h') :
    s'.Locks V ∧ s'.Sound h' := by
  cases hpc : s.pc (.cpu c) with
  | pick p =>
    simp only [go, hpc] at hs
    exact acquire_keeps hi hl hpc hs (.refl _) (Or.inl rfl) rfl ⟨rfl, rfl, rfl⟩ hlater
  | picked p =>
    simp only [go, hpc] at hs
    split_ifs at hs
    · exact ⟨hl.resume hpc hs, hi.resume hpc hs hlater⟩
    · cases hs
      exact release_keeps hi hl hpc rfl List.not_mem_nil rfl rfl ⟨rfl, rfl, rfl⟩ hlater
  | dropped p =>
    simp only [go, hpc] at hs
    cases hs
    exact release_keeps hi hl hpc rfl List.not_mem_nil rfl rfl ⟨rfl, rfl, rfl⟩ hlater
  | kill | killing | killed | wake | waking | waken =>
    rw [hpc] at hcommon
    cases hcommon
  | _ => simp [go, hpc] at hs

/-- The next step of an agent that is in `wakeup` or kkill. -/
theorem common_keeps (hi : s.Sound h) (hl : s.Locks V) (hs : s.go V a = some s')
    (hcommon : (s.pc a).common = true) : s'.Locks V ∧ s'.Sound (h.tick s (a, .go)) := by
  have hlater : (∀ k, s.pc a ≠ .wake k []) → h.Later (h.tick s (a, .go)) := Waked.later_go
  cases hpc : s.pc a with
  | wake k todo =>
    cases todo with
    | nil =>
      have hs : s.goto a (.inside (V.lk k)) = s' := by
        cases a <;> simpa only [go, hpc, Option.some.injEq] using hs
      exact hs ▸ ⟨hl.goto rfl rfl (by rw [hpc]; rfl), hi.woken hl hpc⟩
    | cons q todo =>
      have hlater := hlater (by simp [hpc])
      have hs : (if a.myproc = some q then some (s.goto a (.wake k todo))
          else s.acquire a (.proc q) (.waking k q todo)) = some s' := by
        cases a <;> simpa only [go, hpc] using hs
      split_ifs at hs with hq
      · cases hs
        refine ⟨hl.goto rfl rfl (by rw [hpc]; rfl), hi.move (fun _ => id) (fun _ => rfl) rfl rfl
          (Or.inl rfl) rfl (Or.inr ⟨k, q, todo, by rw [hpc]; rfl, rfl, ?_⟩)
          (Or.inl (by rw [hpc]; rfl)) (by rw [hpc]; rfl) hlater⟩
        -- the agent is `q` itself
        obtain rfl : a = .thread q := by
          cases a with
          | thread p => rw [Option.some.inj hq]
          | cpu => cases hq
        rintro (hset | hsleep)
        · simp [goto, SleepPc.setting] at hset
        · exact hi.awake (p := q) (by rw [hpc]; rfl) hsleep.1
      · exact acquire_keeps hi hl hpc hs (.refl _) (Or.inl rfl) rfl ⟨rfl, rfl, rfl⟩ hlater
  | waking k q todo =>
    have hs : (s.setProc q ((s.proc q).wakeup k)).goto a (.waken k q todo) = s' := by
      cases a <;> simpa only [go, hpc, Option.some.injEq] using hs
    exact hs ▸ ⟨hl.goto rfl rfl (by rw [hpc]; rfl), hi.visit hl hpc (hlater (by simp [hpc]))⟩
  | waken k q todo =>
    have hs : s.release a (.proc q) (.wake k todo) = s' := by
      cases a <;> simpa only [go, hpc, Option.some.injEq] using hs
    exact hs ▸ release_keeps hi hl hpc rfl (by simp [SleepPc.held]) rfl rfl ⟨rfl, rfl, rfl⟩ (hlater (by simp [hpc]))
  | kill q =>
    have hs : s.acquire a (.proc q) (.killing q) = some s' := by
      cases a <;> simpa only [go, hpc] using hs
    exact acquire_keeps hi hl hpc hs (.refl _) (Or.inl rfl) rfl ⟨rfl, rfl, rfl⟩ (hlater (by simp [hpc]))
  | killing q =>
    have hs : (s.setProc q (s.proc q).kkill).goto a (.killed q) = s' := by
      cases a <;> simpa only [go, hpc, Option.some.injEq] using hs
    exact hs ▸ ⟨hl.goto rfl rfl (by rw [hpc]; rfl), hi.kill hpc (hlater (by simp [hpc]))⟩
  | killed q =>
    have hs : s.release a (.proc q) .out = s' := by
      cases a <;> simpa only [go, hpc, Option.some.injEq] using hs
    exact hs ▸ release_keeps hi hl hpc rfl List.not_mem_nil rfl rfl ⟨rfl, rfl, rfl⟩ (hlater (by simp [hpc]))
  | _ =>
    rw [hpc] at hcommon
    cases hcommon

theorem go_keeps (hi : s.Sound h) (hl : s.Locks V) (hs : s.go V a = some s') :
    s'.Locks V ∧ s'.Sound (h.tick s (a, .go)) := by
  cases hcommon : (s.pc a).common with
  | true => exact common_keeps hi hl hs hcommon
  | false =>
    have hlater : h.Later (h.tick s (a, .go)) := Waked.later_go fun k hk => by
      rw [hk] at hcommon
      cases hcommon
    cases a with
    | thread p => exact thread_keeps hi hl hs hcommon hlater
    | cpu c => exact cpu_keeps hi hl hs hcommon hlater

/-- `p` finds that the condition holds. -/
theorem Sound.test (hi : s.Sound h) {l : L} (hpc : s.pc (.thread p) = .inside l) :
    s.Sound (h.tick s (.thread p, .wait k)) := by
  refine ⟨hi.asleep, hi.chan, hi.rest, hi.heading, hi.going, fun k' => Nat.lt_succ_of_lt (hi.woke k'),
    fun q k' hq => ?_⟩
  have hqp : q ≠ p := by
    rintro rfl
    obtain hq | hset | hsleep := hq
    · rw [Heading, hpc] at hq
      cases hq
    · rw [hpc] at hset
      cases hset
    · exact hi.awake (p := q) (by rw [hpc]; rfl) hsleep.1
  have htested : (h.tick s (.thread p, .wait k)).tested q = h.tested q := update_of_ne hqp ..
  rw [htested]
  exact hi.tested q k' hq

/-- Every step keeps the invariants. -/
theorem step_keeps {x : SleepAct P C L K} (hi : s.Sound h) (hl : s.Locks V)
    (hs : s.step V a x = some s') : s'.Locks V ∧ s'.Sound (h.tick s (a, x)) := by
  cases x with
  | acquire l =>
    simp only [step] at hs
    split at hs
    · next hpc =>
      exact acquire_keeps hi hl hpc hs (.refl _) (Or.inl rfl) rfl ⟨rfl, rfl, rfl⟩ ⟨Nat.le_succ _, rfl, rfl⟩
    · cases hs
  | release =>
    simp only [step] at hs
    split at hs
    · next l hpc =>
      cases hs
      exact release_keeps hi hl hpc rfl List.not_mem_nil rfl rfl ⟨rfl, rfl, rfl⟩ ⟨Nat.le_succ _, rfl, rfl⟩
    · cases hs
  | wait k =>
    simp only [step] at hs
    split at hs
    · next p l hpc =>
      obtain ⟨rfl, rfl⟩ := of_guard hs
      cases hcond : s.cond k with
      | true => exact ⟨hl, hi.test hpc⟩
      | false => exact ⟨hl.goto rfl rfl (by rw [hpc]; rfl), hi.wait hpc hcond⟩
    · cases hs
  | signal k v =>
    simp only [step] at hs
    split at hs
    · next l hpc =>
      obtain ⟨rfl, rfl⟩ := of_guard hs
      exact ⟨hl.goto rfl rfl (by rw [hpc]; rfl), hi.signal hl hpc v ⟨Nat.le_succ _, rfl, rfl⟩⟩
    · cases hs
  | consume k =>
    simp only [step] at hs
    split at hs
    · obtain ⟨rfl, rfl⟩ := of_guard hs
      exact ⟨hl, hi.consume ⟨Nat.le_succ _, rfl, rfl⟩⟩
    · cases hs
  | yield =>
    simp only [step] at hs
    split at hs
    · next p hpc =>
      cases hs
      exact goto_keeps hi hl hpc rfl rfl rfl ⟨rfl, rfl, rfl⟩ ⟨Nat.le_succ _, rfl, rfl⟩
    · cases hs
  | kill q =>
    simp only [step] at hs
    split at hs
    · next hpc =>
      cases hs
      exact goto_keeps hi hl hpc rfl rfl rfl ⟨rfl, rfl, rfl⟩ ⟨Nat.le_succ _, rfl, rfl⟩
    · cases hs
  | pick p =>
    simp only [step] at hs
    split at hs
    · next c hpc =>
      cases hs
      exact goto_keeps hi hl hpc rfl rfl rfl ⟨rfl, rfl, rfl⟩ ⟨Nat.le_succ _, rfl, rfl⟩
    · cases hs
  | go => exact go_keeps hi hl hs
  | swtch c =>
    simp only [step] at hs
    split at hs
    · next p o hpc => exact ⟨hl.swtch hpc hs, hi.swtch hpc hs ⟨Nat.le_succ _, rfl, rfl⟩⟩
    · cases hs

/-- The invariants hold in every state of every run. -/
theorem sound_of_reachable {x : SleepSys P C L K × Waked P K} (hr : (sleepMachine V).Reachable x) :
    x.1.Locks V ∧ x.1.Sound x.2 := by
  refine hr.invariant (I := fun x => x.1.Locks V ∧ x.1.Sound x.2) ?_ ?_
  · rintro ⟨s, h⟩ ⟨h0, rfl⟩
    exact ⟨h0.locks, h0.sound⟩
  · rintro ⟨s, h⟩ ⟨a, x⟩ ⟨s', h'⟩ - ⟨hl, hi⟩ - hs
    obtain ⟨hs, rfl⟩ := Machine.observe_step.mp hs
    exact step_keeps hi hl hs

end SleepSys

/-- No wakeup is lost : a process that is SLEEPING on a channel tested the condition after the last
`wakeup` of the channel returned; while the condition lock is free, no process is SLEEPING on a channel
whose condition holds; and `sleep` returns with the condition lock held, no other lock, and `chan` cleared. -/
theorem no_lost_wakeup {V : CondVar P L K} {s : SleepSys P C L K} {h : Waked P K}
    (hr : (sleepMachine V).Reachable (s, h)) :
    (∀ p k, (s.proc p).state = .sleeping → (s.proc p).chan = some k → h.woke k < h.tested p) ∧
    (∀ p k, (s.proc p).state = .sleeping → (s.proc p).chan = some k →
      s.lock (.cond (V.lk k)) = none → s.cond k = false) ∧
    ∀ p k s', s.pc (.thread p) = .sleepRelock k → s.step V (.thread p) .go = some s' →
      (s'.proc p).chan = none ∧ ∀ m, s'.lock m = some (.thread p) ↔ m = .cond (V.lk k) := by
  obtain ⟨hl, hi⟩ := SleepSys.sound_of_reachable hr
  refine ⟨fun p k hs hk => hi.tested p k (Or.inr (Or.inr ⟨hs, hk⟩)), fun p k hs hk hfree => ?_,
    fun p k s' hpc hs => ?_⟩
  · obtain hfalse | ⟨a, todo, ha⟩ := hi.going p k (Or.inr ⟨hs, hk⟩)
    · exact hfalse
    · rw [(hl _ a).mpr (SleepPc.cond_mem_held_of_rest ha)] at hfree
      cases hfree
  · have hl' := (SleepSys.step_keeps hi hl hs).1
    simp only [SleepSys.step, SleepSys.go, hpc, SleepSys.acquire, Option.ite_none_right_eq_some,
      Option.some.injEq] at hs
    obtain ⟨-, rfl⟩ := hs
    refine ⟨hi.chan p (by rw [hpc]; rfl), fun m => ?_⟩
    rw [hl' m (.thread p)]
    simp [SleepSys.goto, SleepPc.held]

/-- Two processes and one channel. -/
def pairCondVar : CondVar (Fin 2) Unit Unit where
  table := List.finRange 2
  mem_table := List.mem_finRange
  lk _ := ()

/-- Process 0 waits, process 1 wakes it up, and process 0 uses the condition up and waits again. -/
theorem no_lost_wakeup_pair : ∃ x : SleepSys (Fin 2) (Fin 2) Unit Unit × Waked (Fin 2) Unit,
    (sleepMachine pairCondVar).Reachable x ∧ (x.1.proc 0).state = .sleeping ∧
      0 < x.2.woke () ∧ x.2.woke () < x.2.tested 0 := by
  obtain ⟨⟨s, h⟩, hr, hsleep, hchan, hwoke⟩ := Machine.reachable_of_exec
    (M := sleepMachine (C := Fin 2) pairCondVar)
    (s := (⟨fun _ => ⟨.runnable, none, false⟩, fun _ => false, fun _ => none, fun
      | .thread _ => .away none
      | .cpu _ => .out⟩, .start))
    ⟨⟨fun _ => rfl, fun _ => rfl, fun _ => ⟨rfl, rfl, rfl⟩⟩, rfl⟩
    ([(.cpu 0, .pick 0), (.cpu 0, .go), (.cpu 0, .go), (.thread 0, .go), (.thread 0, .acquire ()),
      (.thread 0, .wait ()), (.thread 0, .go), (.thread 0, .go), (.thread 0, .go), (.thread 0, .swtch 0),
      (.cpu 0, .go), (.cpu 0, .pick 1), (.cpu 0, .go), (.cpu 0, .go), (.thread 1, .go),
      (.thread 1, .acquire ()), (.thread 1, .signal () true), (.thread 1, .go), (.thread 1, .go),
      (.thread 1, .go), (.thread 1, .go), (.thread 1, .go), (.thread 1, .release), (.cpu 1, .pick 0),
      (.cpu 1, .go), (.cpu 1, .go), (.thread 0, .go), (.thread 0, .go), (.thread 0, .go),
      (.thread 0, .consume ()), (.thread 0, .wait ()), (.thread 0, .go), (.thread 0, .go),
      (.thread 0, .go), (.thread 0, .swtch 1)])
    (fun x => (x.1.proc 0).state = .sleeping ∧ (x.1.proc 0).chan = some () ∧ 0 < x.2.woke ())
    (by decide +kernel)
  exact ⟨(s, h), hr, hsleep, hwoke, (no_lost_wakeup hr).1 0 () hsleep hchan⟩

end Xv6
