import Xv6.CpuSteps
import Xv6.FamilySteps

/-!
# `wait_lock`

kexit wakes its parent before it becomes a ZOMBIE, and kwait looks at its children before it
falls asleep; that no wakeup is lost rests on `wait_lock` being held through both. `Kernel.Waits` is the
invariant : what the holder of `wait_lock` has seen of the table so far (`Kernel.Section`), and
that a process asleep in kwait with a ZOMBIE child is about to be woken up by the holder
(`Kernel.Rouses`), which happens while `reparent` gives a ZOMBIE to init.
-/

namespace Xv6

open Function (update_self update_of_ne)

theorem ThreadPc.forks_of_holdsWait {pc : ThreadPc} (h : pc.holdsWait = true) : pc.forks = none := by
  induction pc with
  | wakeup _ _ _ ih => exact ih h
  | exitReparent | exitZombie | waitScan | waitKilled | waitSleep => rfl
  | _ => cases h

namespace Kernel

variable {n : ℕ}

/-- `p` is in the `sleep(p, &wait_lock)` of kwait. -/
def AsleepInWait (s : Kernel n) (p : Slot) : Prop :=
  (s.mem.proc p).state = .sleeping ∧ (s.mem.proc p).chan = some (.proc p)

/-- What the holder `q` of `wait_lock` knows at its place in kexit or kwait. -/
def Section (s : Kernel n) (q : Slot) : ThreadPc → Prop
  | .exitReparent _ todo | .wakeup _ _ (.exitReparent _ todo) =>
    ∀ x, (s.mem.proc x).parent = some q → x ∈ todo
  | .exitZombie _ => (∀ x, (s.mem.proc x).parent ≠ some q) ∧
    ∀ p, (s.mem.proc q).parent = some p → ¬ s.AsleepInWait p
  | .wakeup chan todo (.exitZombie _) => (∀ x, (s.mem.proc x).parent ≠ some q) ∧
    ∀ p, (s.mem.proc q).parent = some p → s.AsleepInWait p → chan = some (.proc p) ∧ p ∈ todo
  | .waitScan _ _ todo =>
    ∀ x, (s.mem.proc x).parent = some q → (s.mem.proc x).state = .zombie → x ∈ todo
  | .waitKilled _ | .waitSleep _ =>
    ∀ x, (s.mem.proc x).parent = some q → (s.mem.proc x).state ≠ .zombie
  | _ => False

/-- The holder of `wait_lock` is about to wake `p` up. -/
def Rouses (s : Kernel n) (p : Slot) : Prop :=
  ∃ q todo st todo', s.mem.waitLock = some q ∧
    (s.thread q).pc = .wakeup (some (.proc p)) todo (.exitReparent st todo') ∧ p ∈ todo

/-- The invariant of `wait_lock`. -/
structure Waits (s : Kernel n) : Prop where
  intr : ∀ d r, (s.cpu d).intr ≠ none → (s.cpu d).proc = some r → s.mem.waitLock ≠ some r
  init : (s.thread initproc).pc.exitStatus = none
  holds : ∀ q, (s.thread q).pc.holdsWait = true →
    s.mem.waitLock = some q ∨ (s.mem.proc q).state = .zombie ∨ (s.mem.proc q).state = .unused
  live : ∀ q, s.mem.waitLock = some q → (s.mem.proc q).state.live = true
  sect : ∀ q, s.mem.waitLock = some q → s.Section q (s.thread q).pc
  awake : ∀ p x, s.AsleepInWait p → (s.mem.proc x).parent = some p →
    (s.mem.proc x).state = .zombie → s.Rouses p

variable {s s' : Kernel n} {c : Fin n} {a : KAct} {p q : Slot}

theorem boot_waits (n : ℕ) : (boot n).Waits := by
  refine ⟨fun _ _ h => absurd rfl h, rfl, fun _ h => ?_, fun _ h => ?_, fun _ h => ?_, fun p x h => ?_⟩
  · cases h
  · cases h
  · cases h
  · obtain ⟨hs, -⟩ := h
    by_cases hp : p = initproc
    · subst hp
      cases hs
    · rw [boot_state hp] at hs
      cases hs

theorem Section.holds {pc : ThreadPc} (h : s.Section q pc) : pc.holdsWait = true := by
  unfold Section at h
  split at h
  all_goals first | rfl | exact h.elim

/-- The parent links, the ZOMBIEs and the sleepers only get fewer. -/
structure Fewer (s s' : Kernel n) : Prop where
  parent : ∀ x r, (s'.mem.proc x).parent = some r → (s.mem.proc x).parent = some r
  zombie : ∀ x, (s'.mem.proc x).state = .zombie → (s.mem.proc x).state = .zombie
  asleep : ∀ p, s'.AsleepInWait p → s.AsleepInWait p

theorem Fewer.of_eq (h : s'.mem.proc = s.mem.proc) : s.Fewer s' :=
  ⟨fun x r => by rw [h]; exact id, fun x => by rw [h]; exact id,
    fun p => by rw [AsleepInWait, h]; exact id⟩

theorem Fewer.of_unrelated (h : ∀ y, Unrelated (s.mem.proc y) (s'.mem.proc y)) : s.Fewer s' :=
  ⟨fun x => (h x).parent, fun x => (h x).zombie.mp, fun p hp => (h p).asleep p hp.1 hp.2⟩

theorem Section.mono {pc : ThreadPc} (h : s.Section q pc) (hf : s.Fewer s') : s'.Section q pc := by
  unfold Section at h ⊢
  split at h
  · exact fun x hx => h x (hf.parent x _ hx)
  · exact fun x hx => h x (hf.parent x _ hx)
  · exact ⟨fun x hx => h.1 x (hf.parent x _ hx), fun p hp hs => h.2 p (hf.parent _ _ hp) (hf.asleep p hs)⟩
  · exact ⟨fun x hx => h.1 x (hf.parent x _ hx), fun p hp hs => h.2 p (hf.parent _ _ hp) (hf.asleep p hs)⟩
  · exact fun x hx hz => h x (hf.parent x _ hx) (hf.zombie x hz)
  · exact fun x hx hz => h x (hf.parent x _ hx) (hf.zombie x hz)
  · exact fun x hx hz => h x (hf.parent x _ hx) (hf.zombie x hz)
  · exact h.elim

/-! ## `wait_lock` -/

/-- Who holds `wait_lock` after a step. -/
theorem Kin.lock (h : Kin s c a s') : s'.mem.waitLock = s.mem.waitLock ∨ s'.mem.waitLock = none ∨
    ∃ p, s'.mem.waitLock = some p ∧ (s.cpu c).proc = some p ∧ (s.cpu c).intr = none ∧
      s'.cpu = s.cpu := by
  cases h
  case enter p _ hrun hintr hcpu _ _ hlock _ _ _ => exact Or.inr (Or.inr ⟨p, hlock, hrun, hintr, hcpu⟩)
  all_goals first | exact Or.inl ‹_› | exact Or.inr (Or.inl ‹_›)

/-- No handler runs on the CPU of the process that holds `wait_lock`. -/
theorem Waits.intr_step (h : s.Waits) (hplaced : s.Placed) (hkin : Kin s c a s')
    (hs : s.step c a = some s') (d : Fin n) (r : Slot) (hd : (s'.cpu d).intr ≠ none)
    (hr : (s'.cpu d).proc = some r) : s'.mem.waitLock ≠ some r := by
  intro hlock
  obtain heq | hnone | ⟨p, hp, hrun, hintr, hcpu⟩ := hkin.lock
  · rw [heq] at hlock
    -- a CPU that is as it was is none of those the invariant excludes
    have old : s'.cpu d = s.cpu d → False := fun hcpu =>
      h.intr d r (hcpu ▸ hd) (hcpu ▸ hr) hlock
    have other : ∀ {x : Cpu}, s'.cpu = Function.update s.cpu c x → d ≠ c → False := fun hcpu hdc =>
      old (by rw [hcpu, update_of_ne hdc])
    have halive : ∀ {p}, (s.cpu c).proc = some p → (s.mem.proc p).state ≠ .unused := by
      intro p hp hu
      rw [(hplaced.running p).mpr ⟨c, hp⟩] at hu
      cases hu
    cases step_turned halive hs with
    | thread p hrun hintr hcpu => exact old (by rw [hcpu])
    | leave p hrun hcpu | sched m l pc ha hidle hintr hstep hpc hcpu
    | dispatch p ha hidle hintr hpc hchosen hr' hcpu =>
      by_cases hdc : d = c
      · subst hdc
        simp_all
      · exact other hcpu hdc
    | take user i ha hintr hok hi hcpu =>
      by_cases hdc : d = c
      · subst hdc
        rw [hcpu, update_self] at hr
        simp [interruptible, show (s.cpu d).proc = some r from hr, hlock] at hok
      · exact other hcpu hdc
    | handle i i' ha hi hcpu | heat user ha hi hcpu =>
      by_cases hdc : d = c
      · subst hdc
        rw [hcpu, update_self] at hr
        exact h.intr d r (by rw [hi]; simp) hr hlock
      · exact other hcpu hdc
  · rw [hnone] at hlock
    cases hlock
  · rw [hp, Option.some.injEq] at hlock
    subst hlock
    rw [hcpu] at hd hr
    obtain rfl := hplaced.sole d c p hr hrun
    exact hd hintr

/-- A process in a section of `wait_lock` on a CPU holds it. -/
theorem Waits.holder (h : s.Waits) (hplaced : s.Placed) (hrun : (s.cpu c).proc = some p)
    (hpc : (s.thread p).pc.holdsWait = true) : s.mem.waitLock = some p := by
  have hr := (hplaced.running p).mpr ⟨c, hrun⟩
  obtain hlock | hz | hu := h.holds p hpc
  · exact hlock
  · simp [hr] at hz
  · simp [hr] at hu

theorem Waits.kin (h : s.Waits) (hplaced : s.Placed) (hs : s.step c a = some s') :
    Kin s c a s' := by
  refine step_kin hplaced (fun r hi hr => ?_) hs
  by_contra hhold
  rw [Bool.not_eq_false] at hhold
  exact h.intr c r hi hr (h.holder hplaced hr hhold)

/-- Every thread is where it was, but that of `p`. -/
theorem Goes.other {pc : ThreadPc} (h : s.Goes s' p pc) {r : Slot} (hr : r ≠ p) :
    (s'.thread r).pc = (s.thread r).pc := by
  rw [h, if_neg hr]

theorem Goes.self {pc : ThreadPc} (h : s.Goes s' p pc) : (s'.thread p).pc = pc := by
  rw [h, if_pos rfl]

theorem Waits.init_step (h : s.Waits) (hkin : Kin s c a s') :
    (s'.thread initproc).pc.exitStatus = none := by
  -- a thread in kexit was there, or has called it, which init does not
  have hpc : ∀ {p pc}, s.Goes s' p pc → ((s.thread p).pc.exitStatus = none → pc.exitStatus = none) →
      (s'.thread initproc).pc.exitStatus = none := by
    intro p pc hgoes himp
    rw [hgoes]
    split_ifs with hp
    · exact himp (hp ▸ h.init)
    · exact h.init
  cases hkin with
  | unrelated hlock hproc hpc hstatus hev =>
    by_contra hne
    obtain ⟨st, hst⟩ := Option.ne_none_iff_exists'.mp hne
    obtain hold | hnew := hstatus _ _ hst
    · simp [h.init] at hold
    · obtain hev | ⟨r, st', hev, hr, -⟩ := hev
      · simp [hev] at hnew
      · simp only [hev, Option.some.injEq, FamilyEvent.kexit.injEq] at hnew
        exact hr hnew.1
  | alloc p x todo q pid hrun hpc hx hlock hproc hq hparent hgoes hev =>
    rw [hgoes]
    split_ifs
    · rfl
    · rfl
    · exact h.init
  | enter p pc hrun hintr hcpu hpc' hfree hlock hproc hgoes hev =>
    obtain ⟨st, hst, rfl⟩ | ⟨addr, hst, rfl⟩ := hpc'
    · exact hpc hgoes (by simp [hst, ThreadPc.exitStatus])
    · exact hpc hgoes fun _ => rfl
  | reparent p x st todo hrun hpc' hlock hcase hev =>
    obtain ⟨-, -, hgoes⟩ | ⟨-, -, hgoes⟩ := hcase
    · exact hpc hgoes (by simp [hpc', ThreadPc.exitStatus])
    · exact hpc hgoes (by simp [hpc', ThreadPc.exitStatus])
  | rouse p st hrun hpc' hlock hproc hgoes | wake p x chan todo next hrun hpc' hnext hlock hproc hgoes
  | woken p chan next hrun hpc' hnext hlock hproc hgoes =>
    exact hpc hgoes (by simp [hpc', ThreadPc.exitStatus])
  | zombie p st hrun hpc' hlock hproc hgoes =>
    rw [hgoes]
    exact h.init
  | scanned p addr pc hrun hpc' hlock hproc hgoes =>
    obtain ⟨-, -, rfl⟩ | ⟨-, rfl⟩ := hpc' <;> exact hpc hgoes fun _ => rfl
  | parent _ _ _ _ _ _ _ _ hgoes | scan _ _ _ _ _ _ _ _ _ _ _ hgoes | sleep _ _ _ _ _ _ hgoes
  | fail _ _ _ _ _ hgoes | reap _ _ _ _ _ _ _ _ _ _ _ hgoes => exact hpc hgoes fun _ => rfl

/-- The states of the holders of the lock : a step keeps them alive, and keeps the dead dead. -/
theorem Waits.live_step (h : s.Waits) (hplaced : s.Placed) (hkin : Kin s c a s') (q : Slot)
    (hq : s'.mem.waitLock = some q) : (s'.mem.proc q).state.live = true := by
  have hrunning : ∀ {p}, (s.cpu c).proc = some p → (s.mem.proc p).state.live = true := by
    intro p hp
    rw [(hplaced.running p).mpr ⟨c, hp⟩]
    rfl
  cases hkin with
  | unrelated hlock hproc => exact (hproc q).live (h.live q (hlock ▸ hq))
  | alloc p x todo r pid hrun hpc hx hlock hproc hr =>
    have hlive := h.live q (hlock ▸ hq)
    have hqx : q ≠ x := by
      rintro rfl
      simp [hx, ProcState.live] at hlive
    rwa [hproc, update_of_ne hqx]
  | parent p x pid hrun hpc hfree hlock => simp [hlock, hfree] at hq
  | enter p pc hrun hintr hcpu hpc hfree hlock hproc =>
    obtain rfl := Option.some.inj (hlock.symm.trans hq)
    rw [hproc]
    exact hrunning hrun
  | reparent p x st todo hrun hpc hlock hcase =>
    have hlive := h.live q (hlock ▸ hq)
    obtain ⟨-, hproc, -⟩ | ⟨-, hproc, -⟩ := hcase
    · rwa [hproc]
    · rw [hproc]
      by_cases hqx : q = x
      · rwa [hqx, update_self, ← hqx]
      · rwa [update_of_ne hqx]
  | wake p x chan todo next hrun hpc hnext hlock hproc =>
    have hlive := h.live q (hlock ▸ hq)
    refine (unrelated_of_update hproc ?_ q).live hlive
    split_ifs
    · exact .refl _
    · exact .wakeup _ _
  | rouse _ _ _ _ hlock hproc | woken _ _ _ _ _ _ hlock hproc | scan _ _ _ _ _ _ _ _ _ hlock hproc
  | scanned _ _ _ _ _ hlock hproc =>
    rw [hproc]
    exact h.live q (hlock ▸ hq)
  | zombie _ _ _ _ hlock | sleep _ _ _ _ hlock | fail _ _ _ hlock | reap _ _ _ _ _ _ _ _ _ hlock =>
    rw [hlock] at hq
    cases hq

/-- A slot without a living process stays so, but in kfork. -/
theorem Kin.dead (hkin : Kin s c a s') (hplaced : s.Placed)
    (hq : (s.mem.proc q).state = .zombie ∨ (s.mem.proc q).state = .unused) :
    ((s'.mem.proc q).state = .zombie ∨ (s'.mem.proc q).state = .unused) ∨
      (s'.thread q).pc.holdsWait = false := by
  have hrunning : ∀ {p}, (s.cpu c).proc = some p → q ≠ p := by
    rintro p hp rfl
    have hr := (hplaced.running q).mpr ⟨c, hp⟩
    simp [hr] at hq
  have hsame : s'.mem.proc = s.mem.proc →
      ((s'.mem.proc q).state = .zombie ∨ (s'.mem.proc q).state = .unused) ∨
        (s'.thread q).pc.holdsWait = false := fun hproc => Or.inl (hproc ▸ hq)
  have hupdate : ∀ {x r}, s'.mem.proc = Function.update s.mem.proc x r →
      (q = x → r.state = .zombie ∨ r.state = .unused) →
      ((s'.mem.proc q).state = .zombie ∨ (s'.mem.proc q).state = .unused) ∨
        (s'.thread q).pc.holdsWait = false := by
    intro x r hproc hr
    left
    rw [hproc]
    by_cases hqx : q = x
    · rw [hqx, update_self]
      exact hr hqx
    · rwa [update_of_ne hqx]
  cases hkin with
  | unrelated hlock hproc =>
    left
    rwa [(hproc q).zombie, (hproc q).unused]
  | alloc p x todo r pid hrun hpc hx hlock hproc hr hparent hgoes =>
    by_cases hqx : q = x
    · right
      rw [hgoes, if_neg (hrunning hrun), if_pos hqx]
      rfl
    · exact hupdate hproc fun h => absurd h hqx
  | parent p x pid hrun hpc hfree hlock hproc => exact hupdate hproc fun h => by rwa [← h]
  | enter _ _ _ _ _ _ _ _ hproc | rouse _ _ _ _ _ hproc | woken _ _ _ _ _ _ _ hproc
  | scan _ _ _ _ _ _ _ _ _ _ hproc | scanned _ _ _ _ _ _ hproc | fail _ _ _ _ hproc => exact hsame hproc
  | reparent p x st todo hrun hpc hlock hcase =>
    obtain ⟨-, hproc, -⟩ | ⟨-, hproc, -⟩ := hcase
    · exact hsame hproc
    · exact hupdate hproc fun h => by rwa [← h]
  | wake p x chan todo next hrun hpc hnext hlock hproc =>
    refine hupdate hproc ?_
    rintro rfl
    rw [if_neg (hrunning hrun)]
    obtain hq | hq := hq <;> simp [Proc.wakeup, hq]
  | zombie p st hrun hpc hlock hproc | sleep p addr hrun hpc hlock hproc =>
    exact hupdate hproc fun h => absurd h (hrunning hrun)
  | reap p x addr havekids todo hrun hpc hparent hx hlock hproc =>
    exact hupdate hproc fun _ => Or.inr rfl

theorem Waits.holds_step (h : s.Waits) (hplaced : s.Placed) (hkin : Kin s c a s') (q : Slot)
    (hq : (s'.thread q).pc.holdsWait = true) : s'.mem.waitLock = some q ∨
      (s'.mem.proc q).state = .zombie ∨ (s'.mem.proc q).state = .unused := by
  -- a thread that stays where it is
  have other : (s'.thread q).pc = (s.thread q).pc →
      (s.mem.waitLock = some q → s'.mem.waitLock = some q) → s'.mem.waitLock = some q ∨
        (s'.mem.proc q).state = .zombie ∨ (s'.mem.proc q).state = .unused := by
    intro hpc hlock
    obtain hl | hd := h.holds q (hpc ▸ hq)
    · exact Or.inl (hlock hl)
    · exact Or.inr ((hkin.dead hplaced hd).resolve_right (by simp [hq]))
  -- the thread of `p` goes on, and `p` held the lock
  have held : ∀ {p pc}, (s.cpu c).proc = some p → (s.thread p).pc.holdsWait = true →
      s.Goes s' p pc → (s'.mem.waitLock = s.mem.waitLock ∨ pc.holdsWait = false) →
      s'.mem.waitLock = some q ∨
        (s'.mem.proc q).state = .zombie ∨ (s'.mem.proc q).state = .unused := by
    intro p pc hrun hhold hgoes hlock
    have hp := h.holder hplaced hrun hhold
    by_cases hqp : q = p
    · subst hqp
      rw [hgoes.self] at hq
      obtain hlock | hpc := hlock
      · exact Or.inl (hlock.trans hp)
      · simp [hpc] at hq
    · exact other (hgoes.other hqp) fun hl => absurd (Option.some.inj (hl.symm.trans hp)) hqp
  cases hkin with
  | unrelated hlock hproc hpc => exact other ((hpc q).holds (Or.inr hq)) fun hl => hlock.trans hl
  | alloc p x todo r pid hrun hpc hx hlock hproc hr hparent hgoes =>
    refine other ?_ fun hl => hlock.trans hl
    rw [hgoes] at hq ⊢
    split_ifs at hq ⊢
    · cases hq
    · cases hq
    · rfl
  | parent p x pid hrun hpc hfree hlock hproc hgoes =>
    have hqp : q ≠ p := by
      rintro rfl
      rw [hgoes.self] at hq
      cases hq
    exact other (hgoes.other hqp) fun hl => hlock.trans hl
  | enter p pc hrun hintr hcpu hpc hfree hlock hproc hgoes =>
    by_cases hqp : q = p
    · exact Or.inl (hqp ▸ hlock)
    · exact other (hgoes.other hqp) fun hl => by simp [hfree] at hl
  | reparent p x st todo hrun hpc hlock hcase =>
    obtain ⟨-, -, hgoes⟩ | ⟨-, -, hgoes⟩ := hcase
    · exact held hrun (by rw [hpc]; rfl) hgoes (Or.inl hlock)
    · exact held hrun (by rw [hpc]; rfl) hgoes (Or.inl hlock)
  | rouse p st hrun hpc hlock hproc hgoes => exact held hrun (by rw [hpc]; rfl) hgoes (Or.inl hlock)
  | wake p x chan todo next hrun hpc hnext hlock hproc hgoes
  | woken p chan next hrun hpc hnext hlock hproc hgoes =>
    exact held hrun (by rw [hpc]; exact hnext) hgoes (Or.inl hlock)
  | zombie p st hrun hpc hlock hproc hgoes =>
    have hp := h.holder hplaced hrun (by rw [hpc]; rfl)
    by_cases hqp : q = p
    · subst hqp
      refine Or.inr (Or.inl ?_)
      rw [hproc, update_self]
      rfl
    · exact other (hgoes q) fun hl => absurd (Option.some.inj (hl.symm.trans hp)) hqp
  | scan p x addr havekids havekids' todo hrun hpc hx hlock hproc hgoes =>
    exact held hrun (by rw [hpc]; rfl) hgoes (Or.inl hlock)
  | scanned p addr pc hrun hpc hlock hproc hgoes =>
    refine held hrun ?_ hgoes (Or.inl hlock)
    obtain ⟨_, hpc, -⟩ | ⟨hpc, -⟩ := hpc <;> rw [hpc] <;> rfl
  | sleep p addr hrun hpc hlock hproc hgoes => exact held hrun (by rw [hpc]; rfl) hgoes (Or.inr rfl)
  | fail p hrun hpc hlock hproc hgoes =>
    refine held hrun ?_ hgoes (Or.inr rfl)
    obtain ⟨_, _, _, hpc⟩ | ⟨_, hpc⟩ := hpc <;> rw [hpc] <;> rfl
  | reap p x addr havekids todo hrun hpc hparent hx hlock hproc hgoes =>
    exact held hrun (by rw [hpc]; rfl) hgoes (Or.inr rfl)

/-! ## What the holder has seen -/

theorem Fewer.of_alloc {x : Slot} {q : Proc} (hproc : s'.mem.proc = Function.update s.mem.proc x q)
    (hq : q.state = .used) (hparent : q.parent = (s.mem.proc x).parent) : s.Fewer s' := by
  refine ⟨fun y r hy => ?_, fun y hy => ?_, fun p hp => ?_⟩
  · rw [hproc] at hy
    by_cases hyx : y = x
    · rwa [hyx, update_self, hparent, ← hyx] at hy
    · rwa [update_of_ne hyx] at hy
  · rw [hproc] at hy
    by_cases hyx : y = x
    · rw [hyx, update_self, hq] at hy
      cases hy
    · rwa [update_of_ne hyx] at hy
  · rw [AsleepInWait, hproc] at hp
    by_cases hpx : p = x
    · rw [hpx, update_self, hq] at hp
      cases hp.1
    · rwa [update_of_ne hpx] at hp

/-- A `wakeup` of `p` leaves it awake. -/
theorem not_asleep_wakeup {x p : Slot} (hp : (s.mem.proc p).state = .running)
    (hproc : s'.mem.proc = Function.update s.mem.proc x
      (if x = p then s.mem.proc x else (s.mem.proc x).wakeup (some (.proc x)))) :
    ¬ s'.AsleepInWait x := by
  rw [AsleepInWait, hproc, update_self]
  split_ifs with hx
  · simp [hx, hp]
  · unfold Proc.wakeup
    split_ifs with hs
    · simp
    · exact hs

theorem wake_fewer {x p : Slot} {chan : Option Chan} (hproc : s'.mem.proc = Function.update s.mem.proc x
    (if x = p then s.mem.proc x else (s.mem.proc x).wakeup chan)) : s.Fewer s' := by
  refine .of_unrelated (unrelated_of_update hproc ?_)
  split_ifs
  · exact .refl _
  · exact .wakeup _ _

theorem Waits.sect_step (h : s.Waits) (hplaced : s.Placed) (hkin : Kin s c a s') (q : Slot)
    (hq : s'.mem.waitLock = some q) : s'.Section q (s'.thread q).pc := by
  have hsect : ∀ {p pc}, (s.cpu c).proc = some p → (s.thread p).pc = pc → pc.holdsWait = true →
      s.mem.waitLock = some p ∧ s.Section p pc := by
    intro p pc hrun hpc hhold
    have hp := h.holder hplaced hrun (hpc ▸ hhold)
    exact ⟨hp, hpc ▸ h.sect p hp⟩
  cases hkin with
  | unrelated hlock hproc hpc =>
    have hold := h.sect q (hlock ▸ hq)
    rw [(hpc q).holds (Or.inl hold.holds)]
    exact hold.mono (.of_unrelated hproc)
  | alloc p x todo r pid hrun hpc hx hlock hproc hr hparent hgoes =>
    have hold := h.sect q (hlock ▸ hq)
    have hlive := h.live q (hlock ▸ hq)
    have hqp : q ≠ p := by
      rintro rfl
      rw [hpc] at hold
      exact hold
    have hqx : q ≠ x := by
      rintro rfl
      simp [hx, ProcState.live] at hlive
    rw [hgoes, if_neg hqp, if_neg hqx]
    exact hold.mono (.of_alloc hproc hr hparent)
  | parent p x pid hrun hpc hfree hlock => simp [hlock, hfree] at hq
  | enter p pc hrun hintr hcpu hpc hfree hlock hproc hgoes =>
    obtain rfl := Option.some.inj (hlock.symm.trans hq)
    rw [hgoes.self]
    obtain ⟨st, -, rfl⟩ | ⟨addr, -, rfl⟩ := hpc
    · exact fun x _ => List.mem_finRange x
    · exact fun x _ _ => List.mem_finRange x
  | reparent p x st todo hrun hpc hlock hcase =>
    obtain ⟨hp, hold⟩ := hsect hrun hpc rfl
    obtain rfl := Option.some.inj (hp.symm.trans (hlock ▸ hq))
    obtain ⟨hx, hproc, hgoes⟩ | ⟨hx, hproc, hgoes⟩ := hcase
    · rw [hgoes.self]
      intro y hy
      rw [hproc] at hy
      exact (List.mem_cons.mp (hold y hy)).resolve_left fun hyx => hx (hyx ▸ hy)
    · rw [hgoes.self]
      intro y hy
      have hyx : y ≠ x := by
        rintro rfl
        rw [hproc, update_self, Option.some.injEq] at hy
        have hinit := h.init
        rw [hy, hpc] at hinit
        cases hinit
      rw [hproc, update_of_ne hyx] at hy
      exact (List.mem_cons.mp (hold y hy)).resolve_left hyx
  | rouse p st hrun hpc hlock hproc hgoes =>
    obtain ⟨hp, hold⟩ := hsect hrun hpc rfl
    obtain rfl := Option.some.inj (hp.symm.trans (hlock ▸ hq))
    rw [hgoes.self]
    refine ⟨fun x hx => ?_, fun r hr _ => ⟨?_, List.mem_finRange r⟩⟩
    · rw [hproc] at hx
      cases hold x hx
    · rw [hproc] at hr
      rw [hr]
      rfl
  | wake p x chan todo next hrun hpc hnext hlock hproc hgoes =>
    obtain ⟨hp, hold⟩ := hsect hrun hpc hnext
    obtain rfl := Option.some.inj (hp.symm.trans (hlock ▸ hq))
    have hf := wake_fewer hproc
    rw [hgoes.self]
    cases next with
    | exitReparent st todo' => exact fun y hy => hold y (hf.parent y _ hy)
    | exitZombie st =>
      refine ⟨fun y hy => hold.1 y (hf.parent y _ hy), fun r hr hs => ?_⟩
      obtain ⟨rfl, hmem⟩ := hold.2 r (hf.parent _ _ hr) (hf.asleep r hs)
      refine ⟨rfl, (List.mem_cons.mp hmem).resolve_left ?_⟩
      rintro rfl
      exact not_asleep_wakeup ((hplaced.running p).mpr ⟨c, hrun⟩) hproc hs
    | _ => exact hold.elim
  | woken p chan next hrun hpc hnext hlock hproc hgoes =>
    obtain ⟨hp, hold⟩ := hsect hrun hpc hnext
    obtain rfl := Option.some.inj (hp.symm.trans (hlock ▸ hq))
    rw [hgoes.self]
    have hold' := hold.mono (.of_eq hproc)
    cases next with
    | exitReparent st todo' => exact hold'
    | exitZombie st => exact ⟨hold'.1, fun r hr hs => by cases (hold'.2 r hr hs).2⟩
    | _ => exact hold.elim
  | scan p x addr havekids havekids' todo hrun hpc hx hlock hproc hgoes =>
    obtain ⟨hp, hold⟩ := hsect hrun hpc rfl
    obtain rfl := Option.some.inj (hp.symm.trans (hlock ▸ hq))
    rw [hgoes.self]
    intro y hy hz
    rw [hproc] at hy hz
    refine (List.mem_cons.mp (hold y hy hz)).resolve_left ?_
    rintro rfl
    exact hx hy hz
  | scanned p addr pc hrun hpc hlock hproc hgoes =>
    obtain ⟨havekids, hpc, rfl⟩ | ⟨hpc, rfl⟩ := hpc
    · obtain ⟨hp, hold⟩ := hsect hrun hpc rfl
      obtain rfl := Option.some.inj (hp.symm.trans (hlock ▸ hq))
      rw [hgoes.self]
      intro y hy hz
      rw [hproc] at hy hz
      cases hold y hy hz
    · obtain ⟨hp, hold⟩ := hsect hrun hpc rfl
      obtain rfl := Option.some.inj (hp.symm.trans (hlock ▸ hq))
      rw [hgoes.self]
      exact hold.mono (.of_eq hproc)
  | zombie _ _ _ _ hlock | sleep _ _ _ _ hlock | fail _ _ _ hlock | reap _ _ _ _ _ _ _ _ _ hlock =>
    rw [hlock] at hq
    cases hq

/-! ## No wakeup is lost -/

theorem Rouses.of_unlocked (h : s.Rouses p) (hfree : s.mem.waitLock = none) : False := by
  obtain ⟨q, _, _, _, hq, -⟩ := h
  simp [hfree] at hq

/-- The holder `q` is about to wake `p` up only if it is in a `wakeup`. -/
theorem Rouses.of_holder (h : s.Rouses p) (hq : s.mem.waitLock = some q) : ∃ todo st todo',
    (s.thread q).pc = .wakeup (some (.proc p)) todo (.exitReparent st todo') ∧ p ∈ todo := by
  obtain ⟨r, todo, st, todo', hr, hpc, hmem⟩ := h
  obtain rfl := Option.some.inj (hr.symm.trans hq)
  exact ⟨todo, st, todo', hpc, hmem⟩

theorem Waits.awake_step (h : s.Waits) (hplaced : s.Placed) (hkin : Kin s c a s') (p₁ x₁ : Slot)
    (hs : s'.AsleepInWait p₁) (hx₁ : (s'.mem.proc x₁).parent = some p₁)
    (hz₁ : (s'.mem.proc x₁).state = .zombie) : s'.Rouses p₁ := by
  have hfewer : s.Fewer s' → s.Rouses p₁ := fun hf =>
    h.awake p₁ x₁ (hf.asleep _ hs) (hf.parent _ _ hx₁) (hf.zombie _ hz₁)
  -- where the holder is not in a `wakeup`, nobody sleeps over a ZOMBIE
  have absurd_of_pc : ∀ {p}, (s.cpu c).proc = some p → (s.thread p).pc.holdsWait = true →
      (∀ chan todo next, (s.thread p).pc ≠ .wakeup chan todo next) → ¬ s.Rouses p₁ := by
    intro p hrun hhold hpc hr
    obtain ⟨_, _, _, hr, -⟩ := hr.of_holder (h.holder hplaced hrun hhold)
    exact hpc _ _ _ hr
  cases hkin with
  | unrelated hlock hproc hpc =>
    obtain ⟨q, todo, st, todo', hq, hqpc, hmem⟩ := hfewer (.of_unrelated hproc)
    refine ⟨q, todo, st, todo', hlock.trans hq, ?_, hmem⟩
    rw [(hpc q).holds (Or.inl (h.sect q hq).holds), hqpc]
  | alloc p x todo r pid hrun hpc hx hlock hproc hr hparent hgoes =>
    obtain ⟨q, todo, st, todo', hq, hqpc, hmem⟩ := hfewer (.of_alloc hproc hr hparent)
    refine ⟨q, todo, st, todo', hlock.trans hq, ?_, hmem⟩
    have hlive := h.live q hq
    rw [hgoes, if_neg, if_neg, hqpc]
    · rintro rfl
      simp [hx, ProcState.live] at hlive
    · rintro rfl
      simp [hpc] at hqpc
  | parent p x pid hrun hpc hfree hlock hproc =>
    have hused := hplaced.forked p x (by rw [hpc]; rfl)
    have hx₁x : x₁ ≠ x := by
      rintro rfl
      rw [hproc, update_self] at hz₁
      simp [hused] at hz₁
    rw [hproc, update_of_ne hx₁x] at hx₁ hz₁
    have hs' : s.AsleepInWait p₁ := by
      rw [AsleepInWait, hproc] at hs
      by_cases hpx : p₁ = x
      · rwa [hpx, update_self, ← hpx] at hs
      · rwa [update_of_ne hpx] at hs
    exact (Rouses.of_unlocked (h.awake p₁ x₁ hs' hx₁ hz₁) hfree).elim
  | enter p pc hrun hintr hcpu hpc hfree hlock hproc =>
    exact ((hfewer (.of_eq hproc)).of_unlocked hfree).elim
  | reparent p x st todo hrun hpc hlock hcase =>
    have hnone := absurd_of_pc hrun (by rw [hpc]; rfl) (by rw [hpc]; simp)
    obtain ⟨-, hproc, -⟩ | ⟨hx, hproc, hgoes⟩ := hcase
    · exact absurd (hfewer (.of_eq hproc)) hnone
    · have hs' : s.AsleepInWait p₁ := by
        rw [AsleepInWait, hproc] at hs
        by_cases hpx : p₁ = x
        · rwa [hpx, update_self, ← hpx] at hs
        · rwa [update_of_ne hpx] at hs
      by_cases hx₁x : x₁ = x
      · subst hx₁x
        rw [hproc, update_self, Option.some.injEq] at hx₁
        subst hx₁
        exact ⟨p, table, st, todo, hlock.trans (h.holder hplaced hrun (by rw [hpc]; rfl)), hgoes.self,
          List.mem_finRange _⟩
      · rw [hproc, update_of_ne hx₁x] at hx₁ hz₁
        exact absurd (h.awake p₁ x₁ hs' hx₁ hz₁) hnone
  | rouse p st hrun hpc hlock hproc =>
    exact absurd (hfewer (.of_eq hproc)) (absurd_of_pc hrun (by rw [hpc]; rfl) (by rw [hpc]; simp))
  | wake p x chan todo next hrun hpc hnext hlock hproc hgoes =>
    have hp := h.holder hplaced hrun (by rw [hpc]; exact hnext)
    obtain ⟨todo₀, st, todo', hpc', hmem⟩ := (hfewer (wake_fewer hproc)).of_holder hp
    rw [hpc] at hpc'
    injection hpc' with hchan htodo hnext'
    subst hchan hnext' htodo
    refine ⟨p, todo, st, todo', hlock.trans hp, hgoes.self, (List.mem_cons.mp hmem).resolve_left ?_⟩
    rintro rfl
    exact not_asleep_wakeup ((hplaced.running p).mpr ⟨c, hrun⟩) hproc hs
  | woken p chan next hrun hpc hnext hlock hproc =>
    have hp := h.holder hplaced hrun (by rw [hpc]; exact hnext)
    obtain ⟨todo₀, st, todo', hpc', hmem⟩ := (hfewer (.of_eq hproc)).of_holder hp
    rw [hpc] at hpc'
    injection hpc' with _ htodo
    subst htodo
    cases hmem
  | zombie p st hrun hpc hlock hproc =>
    have hp := h.holder hplaced hrun (by rw [hpc]; rfl)
    have hp₁ : p₁ ≠ p := by
      rintro rfl
      rw [AsleepInWait, hproc, update_self] at hs
      cases hs.1
    have hs' : s.AsleepInWait p₁ := by rwa [AsleepInWait, hproc, update_of_ne hp₁] at hs
    by_cases hxp : x₁ = p
    · subst hxp
      have hsect := h.sect x₁ hp
      rw [hpc] at hsect
      rw [hproc, update_self] at hx₁
      exact absurd hs' (hsect.2 p₁ hx₁)
    · rw [hproc, update_of_ne hxp] at hx₁ hz₁
      exact absurd (h.awake p₁ x₁ hs' hx₁ hz₁)
        (absurd_of_pc hrun (by rw [hpc]; rfl) (by rw [hpc]; simp))
  | scan p x addr havekids havekids' todo hrun hpc hx hlock hproc =>
    exact absurd (hfewer (.of_eq hproc)) (absurd_of_pc hrun (by rw [hpc]; rfl) (by rw [hpc]; simp))
  | scanned p addr pc hrun hpc hlock hproc =>
    refine absurd (hfewer (.of_eq hproc)) ?_
    obtain ⟨_, hpc, -⟩ | ⟨hpc, -⟩ := hpc
    · exact absurd_of_pc hrun (by rw [hpc]; rfl) (by rw [hpc]; simp)
    · exact absurd_of_pc hrun (by rw [hpc]; rfl) (by rw [hpc]; simp)
  | sleep p addr hrun hpc hlock hproc =>
    have hp := h.holder hplaced hrun (by rw [hpc]; rfl)
    have hxp : x₁ ≠ p := by
      rintro rfl
      rw [hproc, update_self] at hz₁
      cases hz₁
    rw [hproc, update_of_ne hxp] at hx₁ hz₁
    by_cases hp₁ : p₁ = p
    · subst hp₁
      have hsect := h.sect p₁ hp
      rw [hpc] at hsect
      exact absurd hz₁ (hsect x₁ hx₁)
    · rw [AsleepInWait, hproc, update_of_ne hp₁] at hs
      exact absurd (h.awake p₁ x₁ hs hx₁ hz₁)
        (absurd_of_pc hrun (by rw [hpc]; rfl) (by rw [hpc]; simp))
  | fail p hrun hpc hlock hproc =>
    refine absurd (hfewer (.of_eq hproc)) ?_
    obtain ⟨_, _, _, hpc⟩ | ⟨_, hpc⟩ := hpc
    · exact absurd_of_pc hrun (by rw [hpc]; rfl) (by rw [hpc]; simp)
    · exact absurd_of_pc hrun (by rw [hpc]; rfl) (by rw [hpc]; simp)
  | reap p x addr havekids todo hrun hpc hparent hx hlock hproc =>
    refine absurd (hfewer ⟨fun y r hy => ?_, fun y hy => ?_, fun y hy => ?_⟩)
      (absurd_of_pc hrun (by rw [hpc]; rfl) (by rw [hpc]; simp))
    all_goals
      by_cases hyx : y = x
      · subst hyx
        simp [AsleepInWait, hproc, Proc.freeproc] at hy
      · simpa [AsleepInWait, hproc, hyx] using hy

/-- Every step keeps the invariant. -/
theorem Waits.step (h : s.Waits) (hplaced : s.Placed) (hs : s.step c a = some s') : s'.Waits := by
  have hkin := h.kin hplaced hs
  exact ⟨h.intr_step hplaced hkin hs, h.init_step hkin, h.holds_step hplaced hkin,
    h.live_step hplaced hkin, h.sect_step hplaced hkin, h.awake_step hplaced hkin⟩

end Kernel

end Xv6
