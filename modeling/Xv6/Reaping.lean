import Xv6.WaitLock

/-!
# Every child is reaped once

The lives of the processes are a history variable (`Family`) : how often a slot has been filled, who
filled it, the status its process passed to kexit, and the lists of those that became
ZOMBIEs and of those that a kwait returned. `Kernel.Lineage` relates it to the table, and every step
keeps it : kfork begins a life, the end of kexit and kwait end it, `reparent` hands it to init, and all
the other steps leave it alone. `child_reaped_once` reads the result off.
-/

namespace Xv6

open Function (update_self update_of_ne)

/-! ## The lives of the processes -/

/-- What has happened to the processes : a process is its slot and the number of times the slot
had been filled. -/
structure Family where
  /-- How often the slot has been filled. -/
  gen : Slot → ℕ
  /-- Who called the kfork that filled the slot last. -/
  creator : Slot → Slot × ℕ
  /-- What the process in the slot passed to kexit. -/
  status : Slot → Option Int
  /-- The processes that became ZOMBIEs. -/
  exited : List (Slot × ℕ)
  /-- The processes whose pid a kwait returned. -/
  reaped : List (Slot × ℕ)

namespace Family

def start : Family :=
  ⟨fun _ => 0, fun _ => (initproc, 0), fun _ => none, [], []⟩

/-- The process in slot `x`. -/
def who (h : Family) (x : Slot) : Slot × ℕ :=
  (x, h.gen x)

def record (h : Family) : FamilyEvent → Family
  | .fork p x => { h with
    gen := Function.update h.gen x (h.gen x + 1)
    creator := Function.update h.creator x (h.who p)
    status := Function.update h.status x none }
  | .kexit p status => { h with status := Function.update h.status p (some status) }
  | .zombie p => { h with exited := h.exited ++ [h.who p] }
  | .reap _ x => { h with reaped := h.reaped ++ [h.who x] }

end Family

/-- The kernel with the lives of its processes. -/
def familyMachine (n : ℕ) : Machine (Kernel n × Family) (Fin n × KAct) :=
  (kernelMachine n).observe .start fun h s a => ((s.event a.1 a.2).map h.record).getD h

namespace Kernel

variable {n : ℕ}

/-- `p` is who made the process in `x`, or is init and who made it has exited or is doing so. -/
def Cares (s : Kernel n) (h : Family) (p x : Slot) : Prop :=
  h.creator x = h.who p ∨ p = initproc ∧ (h.creator x ∈ h.exited ∨
    ∃ q, s.mem.waitLock = some q ∧ (s.thread q).pc.exitStatus ≠ none ∧ h.creator x = h.who q)

/-- The table and the lives agree. -/
structure Lineage (s : Kernel n) (h : Family) : Prop where
  orphan : ∀ x, (s.mem.proc x).state = .unused → (s.mem.proc x).parent = none
  alive : ∀ x r, (s.mem.proc x).parent = some r → (s.mem.proc r).state.live = true
  initproc : (s.mem.proc initproc).state.live = true
  cares : ∀ x r, (s.mem.proc x).parent = some r → s.Cares h r x
  forks : ∀ p x, (s.thread p).pc.forks = some x →
    (s.mem.proc p).state.live = true ∧ h.creator x = h.who p
  status : ∀ q st, (s.thread q).pc.exitStatus = some st → h.status q = some st
  zombie : ∀ x, (s.mem.proc x).state = .zombie →
    h.status x = some (s.mem.proc x).xstate ∧ h.who x ∈ h.exited
  gone : ∀ x, h.who x ∈ h.reaped → (s.mem.proc x).state = .unused
  past : ∀ y ∈ h.reaped, y.2 ≤ h.gen y.1
  once : h.reaped.Nodup

variable {s s' : Kernel n} {h : Family} {c : Fin n} {a : KAct} {p q : Slot}

theorem boot_lineage (n : ℕ) : (boot n).Lineage .start := by
  have hparent : ∀ x, ((boot n).mem.proc x).parent = none := by
    intro x
    by_cases hx : x = Xv6.initproc
    · subst hx
      rfl
    · rw [boot_state hx]
      rfl
  refine ⟨fun x _ => hparent x, fun x r hr => ?_, rfl, fun x r hr => ?_, fun p x hp => ?_,
    fun q st hq => ?_, fun x hx => ?_, fun x hx => ?_, fun y hy => ?_, List.nodup_nil⟩
  · simp [hparent] at hr
  · simp [hparent] at hr
  · cases hp
  · cases hq
  · by_cases hi : x = Xv6.initproc
    · subst hi
      cases hx
    · rw [boot_state hi] at hx
      cases hx
  · cases hx
  · cases hy

/-- A change of a slot that makes no child, no ZOMBIE and no parent link. -/
structure SameLife (q q' : Proc) : Prop where
  parent : ∀ r, q'.parent = some r → q.parent = some r
  unused : q'.state = .unused ↔ q.state = .unused
  live : q.state.live = true → q'.state.live = true
  zombie : q'.state = .zombie → q.state = .zombie ∧ q'.xstate = q.xstate

theorem SameLife.refl (q : Proc) : SameLife q q :=
  ⟨fun _ => id, Iff.rfl, id, fun hz => ⟨hz, rfl⟩⟩

theorem SameLife.of_unrelated {q q' : Proc} (hu : Unrelated q q') : SameLife q q' :=
  ⟨hu.parent, hu.unused, hu.live, fun hz => ⟨hu.zombie.mp hz, (hu.kept (hu.zombie.mp hz)).1⟩⟩

/-- A step that makes no child, no ZOMBIE and no parent link. -/
structure Keeps (s s' : Kernel n) : Prop where
  proc : ∀ x, SameLife (s.mem.proc x) (s'.mem.proc x)
  forks : ∀ p x, (s'.thread p).pc.forks = some x → (s.thread p).pc.forks = some x
  exits : ∀ q, s.mem.waitLock = some q → (s.thread q).pc.exitStatus ≠ none →
    s'.mem.waitLock = some q ∧ (s'.thread q).pc.exitStatus ≠ none

theorem Cares.of_exits {x : Slot} (hc : s.Cares h p x)
    (hexits : ∀ q, s.mem.waitLock = some q → (s.thread q).pc.exitStatus ≠ none →
      s'.mem.waitLock = some q ∧ (s'.thread q).pc.exitStatus ≠ none) : s'.Cares h p x := by
  obtain hc | ⟨hp, hc | ⟨q, hq, hst, hc⟩⟩ := hc
  · exact Or.inl hc
  · exact Or.inr ⟨hp, Or.inl hc⟩
  · exact Or.inr ⟨hp, Or.inr ⟨q, (hexits q hq hst).1, (hexits q hq hst).2, hc⟩⟩

theorem Lineage.keeps {f : Slot → Option Int} (hl : s.Lineage h) (hk : s.Keeps s')
    (hstatus : ∀ q st, (s'.thread q).pc.exitStatus = some st → f q = some st)
    (hz : ∀ x, (s.mem.proc x).state = .zombie → f x = h.status x) :
    s'.Lineage { h with status := f } where
  orphan x hx := by
    have hnone := hl.orphan x ((hk.proc x).unused.mp hx)
    cases hp : (s'.mem.proc x).parent with
    | none => rfl
    | some r => simp [(hk.proc x).parent r hp] at hnone
  alive x r hr := (hk.proc r).live (hl.alive x r ((hk.proc x).parent r hr))
  initproc := (hk.proc _).live hl.initproc
  cares x r hr := (hl.cares x r ((hk.proc x).parent r hr)).of_exits hk.exits
  forks p x hp := by
    obtain ⟨hlive, hc⟩ := hl.forks p x (hk.forks p x hp)
    exact ⟨(hk.proc p).live hlive, hc⟩
  status := hstatus
  zombie x hx := by
    obtain ⟨hx, hxs⟩ := (hk.proc x).zombie hx
    rw [hxs]
    exact ⟨(hz x hx).trans (hl.zombie x hx).1, (hl.zombie x hx).2⟩
  gone x hx := (hk.proc x).unused.mpr (hl.gone x hx)
  past := hl.past
  once := hl.once

/-- A step of `p` that records nothing. -/
theorem Lineage.goes {pc : ThreadPc} (hl : s.Lineage h)
    (hproc : ∀ x, SameLife (s.mem.proc x) (s'.mem.proc x)) (hgoes : s.Goes s' p pc)
    (hforks : pc.forks = none)
    (hst : pc.exitStatus = none ∨ pc.exitStatus = (s.thread p).pc.exitStatus)
    (hlock : ∀ q, s.mem.waitLock = some q → (s.thread q).pc.exitStatus ≠ none →
      s'.mem.waitLock = some q ∧ (q = p → pc.exitStatus ≠ none)) : s'.Lineage h := by
  refine hl.keeps (f := h.status) ⟨hproc, fun r x hr => ?_, fun q hq hne => ?_⟩ (fun q st hq => ?_)
    fun _ _ => rfl
  · rw [hgoes] at hr
    split_ifs at hr
    · simp [hforks] at hr
    · exact hr
  · obtain ⟨hq', hpc⟩ := hlock q hq hne
    refine ⟨hq', ?_⟩
    rw [hgoes]
    split_ifs with hqp
    · exact hpc hqp
    · exact hne
  · refine hl.status q st ?_
    rw [hgoes] at hq
    split_ifs at hq with hqp
    · obtain hst | hst := hst
      · simp [hst] at hq
      · rw [hqp, ← hst, hq]
    · exact hq

theorem Lineage.unrelated {e : Option FamilyEvent} (hl : s.Lineage h) (hplaced : s.Placed)
    (hw : s.Waits) (hlock : s'.mem.waitLock = s.mem.waitLock)
    (hproc : ∀ y, Unrelated (s.mem.proc y) (s'.mem.proc y))
    (hpc : ∀ r, UnrelatedPc (s.thread r).pc (s'.thread r).pc)
    (hstatus : ∀ r st, (s'.thread r).pc.exitStatus = some st →
      (s.thread r).pc.exitStatus = some st ∨ e = some (.kexit r st))
    (hev : e = none ∨ ∃ r st, e = some (.kexit r st) ∧ r ≠ Xv6.initproc ∧
      (s.cpu c).proc = some r ∧ (s'.thread r).pc.exitStatus = some st) :
    s'.Lineage ((e.map h.record).getD h) := by
  have hk : s.Keeps s' := by
    refine ⟨fun x => .of_unrelated (hproc x), fun p => (hpc p).forks, fun q hq hne => ?_⟩
    rw [(hpc q).holds (Or.inl (hw.sect q hq).holds)]
    exact ⟨hlock.trans hq, hne⟩
  obtain rfl | ⟨r, st, rfl, -, hrun, hst⟩ := hev
  · exact hl.keeps (f := h.status) hk (fun q st hq => hl.status q st ((hstatus q st hq).resolve_right
      (by simp))) fun _ _ => rfl
  · refine hl.keeps hk (fun q st' hq => ?_) fun x hx => ?_
    · by_cases hqr : q = r
      · subst hqr
        rw [update_self, ← hst, hq]
      · rw [update_of_ne hqr]
        refine hl.status q st' ((hstatus q st' hq).resolve_right ?_)
        simp only [Option.some.injEq, FamilyEvent.kexit.injEq, not_and]
        exact fun h => absurd h.symm hqr
    · have hxr : x ≠ r := by
        rintro rfl
        rw [(hplaced.running x).mpr ⟨c, hrun⟩] at hx
        cases hx
      rw [update_of_ne hxr]

theorem Lineage.alloc {x : Slot} {r : Proc} {todo : List Slot} {pid : Int} (hl : s.Lineage h)
    (hplaced : s.Placed) (hw : s.Waits) (hrun : (s.cpu c).proc = some p)
    (hpc : (s.thread p).pc = .forkAlloc (x :: todo)) (hx : (s.mem.proc x).state = .unused)
    (hlock : s'.mem.waitLock = s.mem.waitLock)
    (hproc : s'.mem.proc = Function.update s.mem.proc x r) (hr : r.state = .used)
    (hparent : r.parent = (s.mem.proc x).parent)
    (hgoes : ∀ q, (s'.thread q).pc =
      if q = p then .forkParent x pid else if q = x then .user else (s.thread q).pc) :
    s'.Lineage (h.record (.fork p x)) := by
  have hp := (hplaced.running p).mpr ⟨c, hrun⟩
  -- the slot was nobody's : not alive, nobody's parent, not being forked
  have hlive : ∀ {y}, (s.mem.proc y).state.live = true → y ≠ x := by
    rintro y hy rfl
    simp [hx, ProcState.live] at hy
  have hpx : p ≠ x := hlive (by rw [hp]; rfl)
  have hnone : r.parent = none := hparent.trans (hl.orphan x hx)
  have hne : ∀ {y q}, (s'.mem.proc y).parent = some q → y ≠ x := by
    rintro y q hy rfl
    simp [hproc, hnone] at hy
  have hold : ∀ {y}, y ≠ x → s'.mem.proc y = s.mem.proc y := fun hy => by
    rw [hproc, update_of_ne hy]
  have hwho : ∀ {y}, y ≠ x → (h.record (.fork p x)).who y = h.who y := fun hy => by
    simp [Family.record, Family.who, hy]
  have hcreator : ∀ {y}, y ≠ x → (h.record (.fork p x)).creator y = h.creator y := fun hy => by
    simp [Family.record, hy]
  refine ⟨fun y hy => ?_, fun y q hq => ?_, ?_, fun y q hq => ?_, fun q y hq => ?_, fun q st hq => ?_,
    fun y hy => ?_, fun y hy => ?_, fun y hy => ?_, hl.once⟩
  · have hyx : y ≠ x := by
      rintro rfl
      simp [hproc, hr] at hy
    rw [hold hyx] at hy ⊢
    exact hl.orphan y hy
  · rw [hold (hne hq)] at hq
    have hlq := hl.alive y q hq
    rwa [hold (hlive hlq)]
  · rw [hold (hlive hl.initproc)]
    exact hl.initproc
  · have hyx := hne hq
    rw [hold hyx] at hq
    have hqx := hlive (hl.alive y q hq)
    have hc : s'.Cares h q y := (hl.cares y q hq).of_exits fun t ht hst => by
      refine ⟨hlock.trans ht, ?_⟩
      have htp : t ≠ p := by
        rintro rfl
        simp [hpc, ThreadPc.exitStatus] at hst
      rwa [hgoes, if_neg htp, if_neg (hlive (hw.live t ht))]
    obtain hc | ⟨rfl, hc | ⟨t, ht, hst, hc⟩⟩ := hc
    · exact Or.inl (by rw [hcreator hyx, hwho hqx, hc])
    · exact Or.inr ⟨rfl, Or.inl (by rwa [hcreator hyx])⟩
    · refine Or.inr ⟨rfl, Or.inr ⟨t, ht, hst, ?_⟩⟩
      rw [hcreator hyx, hwho (hlive (hw.live t (hlock ▸ ht))), hc]
  · rw [hgoes] at hq
    split_ifs at hq with hqp hqx
    · obtain rfl : x = y := Option.some.inj hq
      subst hqp
      rw [hold hpx, hp, hwho hpx]
      exact ⟨rfl, by simp [Family.record]⟩
    · cases hq
    · obtain ⟨hlq, hc⟩ := hl.forks q y hq
      have hyx : y ≠ x := by
        rintro rfl
        rw [hplaced.forked q y hq] at hx
        cases hx
      rw [hold hqx, hwho hqx, hcreator hyx]
      exact ⟨hlq, hc⟩
  · rw [hgoes] at hq
    split_ifs at hq with hqp hqx
    · cases hq
    · cases hq
    · simp only [Family.record, update_of_ne hqx]
      exact hl.status q st hq
  · have hyx : y ≠ x := by
      rintro rfl
      simp [hproc, hr] at hy
    rw [hold hyx] at hy ⊢
    rw [hwho hyx]
    simp only [Family.record, update_of_ne hyx]
    exact hl.zombie y hy
  · by_cases hyx : y = x
    · subst hyx
      have hle := hl.past _ hy
      simp only [Family.who, Family.record, update_self] at hle
      omega
    · rw [hwho hyx] at hy
      rw [hold hyx]
      exact hl.gone y hy
  · have hle := hl.past y hy
    simp only [Family.record]
    by_cases hyx : y.1 = x
    · rw [hyx, update_self]
      rw [hyx] at hle
      omega
    · rwa [update_of_ne hyx]

/-- A new parent link, from kfork or from `reparent`. -/
theorem Lineage.link {x r : Slot} {pc : ThreadPc} (hl : s.Lineage h)
    (hx : (s.mem.proc x).state ≠ .unused) (hr : (s.mem.proc r).state.live = true)
    (hproc : s'.mem.proc = Function.update s.mem.proc x { s.mem.proc x with parent := some r })
    (hlock : s'.mem.waitLock = s.mem.waitLock) (hgoes : s.Goes s' p pc)
    (hforks : ∀ np, pc.forks = some np → (s.thread p).pc.forks = some np)
    (hst : pc.exitStatus = (s.thread p).pc.exitStatus) (hcares : s'.Cares h r x) :
    s'.Lineage h := by
  have hstate : ∀ y, (s'.mem.proc y).state = (s.mem.proc y).state ∧
      (s'.mem.proc y).xstate = (s.mem.proc y).xstate := by
    intro y
    rw [hproc]
    by_cases hyx : y = x
    · rw [hyx, update_self]
      exact ⟨rfl, rfl⟩
    · rw [update_of_ne hyx]
      exact ⟨rfl, rfl⟩
  have hparent : ∀ {y q}, (s'.mem.proc y).parent = some q →
      (y = x ∧ q = r) ∨ (s.mem.proc y).parent = some q := by
    intro y q hy
    rw [hproc] at hy
    by_cases hyx : y = x
    · rw [hyx, update_self, Option.some.injEq] at hy
      exact Or.inl ⟨hyx, hy.symm⟩
    · rw [update_of_ne hyx] at hy
      exact Or.inr hy
  have hstatus : ∀ q, (s'.thread q).pc.exitStatus = (s.thread q).pc.exitStatus := by
    intro q
    rw [hgoes]
    split_ifs with hqp
    · rw [hqp, hst]
    · rfl
  refine ⟨fun y hy => ?_, fun y q hq => ?_, ?_, fun y q hq => ?_, fun q y hq => ?_, fun q st hq => ?_,
    fun y hy => ?_, fun y hy => ?_, hl.past, hl.once⟩
  · rw [(hstate y).1] at hy
    have hyx : y ≠ x := by
      rintro rfl
      exact hx hy
    rw [hproc, update_of_ne hyx]
    exact hl.orphan y hy
  · rw [(hstate q).1]
    obtain ⟨-, rfl⟩ | hq := hparent hq
    · exact hr
    · exact hl.alive y q hq
  · rw [(hstate _).1]
    exact hl.initproc
  · obtain ⟨rfl, rfl⟩ | hq := hparent hq
    · exact hcares
    · exact (hl.cares y q hq).of_exits fun t ht hne => ⟨hlock.trans ht, by rwa [hstatus]⟩
  · rw [(hstate q).1]
    refine hl.forks q y ?_
    rw [hgoes] at hq
    split_ifs at hq with hqp
    · exact hqp ▸ hforks y hq
    · exact hq
  · exact hl.status q st ((hstatus q).symm.trans hq)
  · rw [(hstate y).2]
    exact hl.zombie y ((hstate y).1.symm.trans hy)
  · rw [(hstate y).1]
    exact hl.gone y hy

theorem Lineage.exit {st : Int} (hl : s.Lineage h) (hplaced : s.Placed) (hw : s.Waits)
    (hrun : (s.cpu c).proc = some p) (hpc : (s.thread p).pc = .exitZombie st)
    (hproc : s'.mem.proc = Function.update s.mem.proc p ((s.mem.proc p).exit st))
    (hgoes : ∀ r, (s'.thread r).pc = (s.thread r).pc) : s'.Lineage (h.record (.zombie p)) := by
  have hp := (hplaced.running p).mpr ⟨c, hrun⟩
  have hlockp := hw.holder hplaced hrun (by rw [hpc]; rfl)
  have hsect := hw.sect p hlockp
  rw [hpc] at hsect
  have hold : ∀ {y}, y ≠ p → s'.mem.proc y = s.mem.proc y := fun hy => by
    rw [hproc, update_of_ne hy]
  have hparent : ∀ y, (s'.mem.proc y).parent = (s.mem.proc y).parent := by
    intro y
    rw [hproc]
    by_cases hyp : y = p
    · rw [hyp, update_self]
      rfl
    · rw [update_of_ne hyp]
  have hinit : Xv6.initproc ≠ p := by
    rintro rfl
    have hinit := hw.init
    rw [hpc] at hinit
    cases hinit
  have hdead : ∀ {y}, (s'.mem.proc y).state = .unused → y ≠ p := by
    rintro y hy rfl
    rw [hproc, update_self] at hy
    cases hy
  refine ⟨fun y hy => ?_, fun y q hq => ?_, ?_, fun y q hq => ?_, fun q y hq => ?_, fun q st' hq => ?_,
    fun y hy => ?_, fun y hy => ?_, hl.past, hl.once⟩
  · rw [hold (hdead hy)] at hy
    rw [hparent]
    exact hl.orphan y hy
  · rw [hparent] at hq
    have hqp : q ≠ p := by
      rintro rfl
      exact hsect.1 y hq
    rw [hold hqp]
    exact hl.alive y q hq
  · rw [hold hinit]
    exact hl.initproc
  · rw [hparent] at hq
    obtain hc | ⟨rfl, hc | ⟨t, ht, -, hc⟩⟩ := hl.cares y q hq
    · exact Or.inl hc
    · exact Or.inr ⟨rfl, Or.inl (List.mem_append_left _ hc)⟩
    · obtain rfl := Option.some.inj (ht.symm.trans hlockp)
      refine Or.inr ⟨rfl, Or.inl (List.mem_append_right _ ?_)⟩
      exact List.mem_singleton.mpr hc
  · rw [hgoes] at hq
    have hqp : q ≠ p := by
      rintro rfl
      rw [hpc] at hq
      cases hq
    rw [hold hqp]
    exact hl.forks q y hq
  · rw [hgoes] at hq
    exact hl.status q st' hq
  · by_cases hyp : y = p
    · subst hyp
      rw [hproc, update_self]
      exact ⟨hl.status y st (by rw [hpc]; rfl), List.mem_append_right _ (List.mem_singleton.mpr rfl)⟩
    · rw [hold hyp] at hy ⊢
      exact ⟨(hl.zombie y hy).1, List.mem_append_left _ (hl.zombie y hy).2⟩
  · have hu := hl.gone y hy
    have hyp : y ≠ p := by
      rintro rfl
      rw [hp] at hu
      cases hu
    rwa [hold hyp]

theorem Lineage.reap {x : Slot} {addr havekids : Bool} {todo : List Slot} (hl : s.Lineage h)
    (hplaced : s.Placed) (hw : s.Waits) (hrun : (s.cpu c).proc = some p)
    (hpc : (s.thread p).pc = .waitScan addr havekids (x :: todo))
    (hx : (s.mem.proc x).state = .zombie)
    (hproc : s'.mem.proc = Function.update s.mem.proc x (s.mem.proc x).freeproc)
    (hgoes : s.Goes s' p .user) : s'.Lineage (h.record (.reap p x)) := by
  have hlockp := hw.holder hplaced hrun (by rw [hpc]; rfl)
  have hold : ∀ {y}, y ≠ x → s'.mem.proc y = s.mem.proc y := fun hy => by
    rw [hproc, update_of_ne hy]
  have hnew : s'.mem.proc x = (s.mem.proc x).freeproc := by rw [hproc, update_self]
  have hne : ∀ {y q}, (s'.mem.proc y).parent = some q → y ≠ x := by
    rintro y q hy rfl
    rw [hnew] at hy
    cases hy
  have hlive : ∀ {y}, (s.mem.proc y).state.live = true → y ≠ x := by
    rintro y hy rfl
    rw [hx] at hy
    cases hy
  refine ⟨fun y hy => ?_, fun y q hq => ?_, ?_, fun y q hq => ?_, fun q y hq => ?_, fun q st hq => ?_,
    fun y hy => ?_, fun y hy => ?_, fun y hy => ?_, ?_⟩
  · by_cases hyx : y = x
    · rw [hyx, hnew]
      rfl
    · rw [hold hyx] at hy ⊢
      exact hl.orphan y hy
  · rw [hold (hne hq)] at hq
    have hlq := hl.alive y q hq
    rwa [hold (hlive hlq)]
  · rw [hold (hlive hl.initproc)]
    exact hl.initproc
  · rw [hold (hne hq)] at hq
    refine Cares.of_exits (s := s) (hl.cares y q hq) fun t ht hst => ?_
    obtain rfl := Option.some.inj (ht.symm.trans hlockp)
    simp [hpc, ThreadPc.exitStatus] at hst
  · rw [hgoes] at hq
    split_ifs at hq
    · cases hq
    · obtain ⟨hlq, hc⟩ := hl.forks q y hq
      rw [hold (hlive hlq)]
      exact ⟨hlq, hc⟩
  · rw [hgoes] at hq
    split_ifs at hq
    · cases hq
    · exact hl.status q st hq
  · have hyx : y ≠ x := by
      rintro rfl
      rw [hnew] at hy
      cases hy
    rw [hold hyx] at hy ⊢
    exact hl.zombie y hy
  · by_cases hyx : y = x
    · rw [hyx, hnew]
      rfl
    · rw [hold hyx]
      refine hl.gone y ((List.mem_append.mp hy).resolve_right fun hy => hyx ?_)
      exact congrArg Prod.fst (List.mem_singleton.mp hy)
  · obtain hy | hy := List.mem_append.mp hy
    · exact hl.past y hy
    · obtain rfl := List.mem_singleton.mp hy
      exact le_rfl
  · refine List.nodup_append.mpr ⟨hl.once, by simp, ?_⟩
    rintro y hy z hz rfl
    obtain rfl := List.mem_singleton.mp hz
    have hu := hl.gone x hy
    rw [hx] at hu
    cases hu

/-- Every step keeps the agreement. -/
theorem Lineage.step (hl : s.Lineage h) (hplaced : s.Placed) (hw : s.Waits)
    (hs : s.step c a = some s') : s'.Lineage (((s.event c a).map h.record).getD h) := by
  have hrunning : ∀ {p}, (s.cpu c).proc = some p → (s.mem.proc p).state = .running :=
    fun hp => (hplaced.running _).mpr ⟨c, hp⟩
  have hsame : s'.mem.proc = s.mem.proc → ∀ x, SameLife (s.mem.proc x) (s'.mem.proc x) :=
    fun hproc x => hproc ▸ .refl _
  -- `wait_lock` stays with its holder, who is in kexit if it was
  have hstay : ∀ {p : Slot} {pc : ThreadPc}, s'.mem.waitLock = s.mem.waitLock →
      pc.exitStatus = (s.thread p).pc.exitStatus → ∀ q, s.mem.waitLock = some q →
      (s.thread q).pc.exitStatus ≠ none → s'.mem.waitLock = some q ∧ (q = p → pc.exitStatus ≠ none) :=
    fun hlock hst q hq hne => ⟨hlock.trans hq, fun hqp => by rwa [hst, ← hqp]⟩
  -- the holder `p` is not in kexit
  have hwait : ∀ {p : Slot} {pc : ThreadPc}, (s.cpu c).proc = some p → (s.thread p).pc.holdsWait = true →
      (s.thread p).pc.exitStatus = none → ∀ q, s.mem.waitLock = some q →
      (s.thread q).pc.exitStatus ≠ none → s'.mem.waitLock = some q ∧
        (q = p → pc.exitStatus ≠ none) := by
    intro p pc hrun hhold hst q hq hne
    obtain rfl := Option.some.inj (hq.symm.trans (hw.holder hplaced hrun hhold))
    exact absurd hst hne
  cases hw.kin hplaced hs with
  | unrelated hlock hproc hpc hstatus hev =>
    exact hl.unrelated hplaced hw hlock hproc hpc hstatus hev
  | alloc p x todo r pid hrun hpc hx hlock hproc hr hparent hgoes hev =>
    rw [hev]
    exact hl.alloc hplaced hw hrun hpc hx hlock hproc hr hparent hgoes
  | parent p x pid hrun hpc hfree hlock hproc hgoes hev =>
    rw [hev]
    refine hl.link ?_ (by rw [hrunning hrun]; rfl) hproc hlock hgoes (by rw [hpc]; exact fun _ => id)
      (by rw [hpc]; rfl) (Or.inl (hl.forks p x (by rw [hpc]; rfl)).2)
    rw [hplaced.forked p x (by rw [hpc]; rfl)]
    simp
  | enter p pc hrun hintr hcpu hpc hfree hlock hproc hgoes hev =>
    rw [hev]
    refine hl.goes (hsame hproc) hgoes ?_ ?_ fun q hq => by simp [hfree] at hq
    · obtain ⟨_, -, rfl⟩ | ⟨_, -, rfl⟩ := hpc <;> rfl
    · obtain ⟨_, hpc, rfl⟩ | ⟨_, -, rfl⟩ := hpc
      · exact Or.inr (by rw [hpc]; rfl)
      · exact Or.inl rfl
  | reparent p x st todo hrun hpc hlock hcase hev =>
    rw [hev]
    obtain ⟨-, hproc, hgoes⟩ | ⟨hx, hproc, hgoes⟩ := hcase
    · exact hl.goes (hsame hproc) hgoes rfl (Or.inr (by rw [hpc]; rfl))
        (hstay hlock (by rw [hpc]; rfl))
    · have hp : p ≠ Xv6.initproc := by
        rintro rfl
        have hinit := hw.init
        rw [hpc] at hinit
        cases hinit
      refine hl.link (fun hu => ?_) hl.initproc hproc hlock hgoes (fun _ hf => by cases hf)
        (by rw [hpc]; rfl) (Or.inr ⟨rfl, Or.inr ⟨p, ?_, by rw [hgoes.self]; simp [ThreadPc.exitStatus],
          (hl.cares x p hx).resolve_right fun hc => hp hc.1⟩⟩)
      · simp [hl.orphan x hu] at hx
      · exact hlock.trans (hw.holder hplaced hrun (by rw [hpc]; rfl))
  | rouse p st hrun hpc hlock hproc hgoes hev =>
    rw [hev]
    exact hl.goes (hsame hproc) hgoes rfl (Or.inr (by rw [hpc]; rfl)) (hstay hlock (by rw [hpc]; rfl))
  | wake p x chan todo next hrun hpc hnext hlock hproc hgoes hev =>
    rw [hev]
    refine hl.goes (fun y => .of_unrelated (unrelated_of_update hproc ?_ y)) hgoes ?_
      (Or.inr (by rw [hpc]; rfl)) (hstay hlock (by rw [hpc]; rfl))
    · split_ifs
      · exact .refl _
      · exact .wakeup _ _
    · exact ThreadPc.forks_of_holdsWait hnext
  | woken p chan next hrun hpc hnext hlock hproc hgoes hev =>
    rw [hev]
    exact hl.goes (hsame hproc) hgoes (ThreadPc.forks_of_holdsWait hnext) (Or.inr (by rw [hpc]; rfl))
      (hstay hlock (by rw [hpc]; rfl))
  | zombie p st hrun hpc hlock hproc hgoes hev =>
    rw [hev]
    exact hl.exit hplaced hw hrun hpc hproc hgoes
  | scan p x addr havekids havekids' todo hrun hpc hx hlock hproc hgoes hev =>
    rw [hev]
    exact hl.goes (hsame hproc) hgoes rfl (Or.inl rfl) (hstay hlock (by rw [hpc]; rfl))
  | scanned p addr pc hrun hpc hlock hproc hgoes hev =>
    rw [hev]
    obtain ⟨_, hpc, rfl⟩ | ⟨hpc, rfl⟩ := hpc
    · exact hl.goes (hsame hproc) hgoes rfl (Or.inl rfl) (hstay hlock (by rw [hpc]; rfl))
    · exact hl.goes (hsame hproc) hgoes rfl (Or.inl rfl) (hstay hlock (by rw [hpc]; rfl))
  | sleep p addr hrun hpc hlock hproc hgoes hev =>
    rw [hev]
    refine hl.goes (fun y => ?_) hgoes rfl (Or.inl rfl)
      (hwait hrun (by rw [hpc]; rfl) (by rw [hpc]; rfl))
    rw [hproc]
    by_cases hyp : y = p
    · subst hyp
      rw [update_self]
      exact ⟨fun _ => id, by simp [Proc.sleep, hrunning hrun], fun _ => rfl, fun hz => by cases hz⟩
    · rw [update_of_ne hyp]
      exact .refl _
  | fail p hrun hpc hlock hproc hgoes hret hev =>
    rw [hev]
    refine hl.goes (hsame hproc) hgoes rfl (Or.inl rfl) ?_
    obtain ⟨_, _, _, hpc⟩ | ⟨_, hpc⟩ := hpc
    · exact hwait hrun (by rw [hpc]; rfl) (by rw [hpc]; rfl)
    · exact hwait hrun (by rw [hpc]; rfl) (by rw [hpc]; rfl)
  | reap p x addr havekids todo hrun hpc hparent hx hlock hproc hgoes hret hstored hev =>
    rw [hev]
    exact hl.reap hplaced hw hrun hpc hx hproc hgoes

/-! ## The result -/

theorem waits_of_reachable (hr : (kernelMachine n).Reachable s) : s.Waits :=
  hr.invariant (I := Waits) (fun _ h0 => h0 ▸ boot_waits n) fun _ _ _ hr hw _ hs =>
    hw.step (placed_of_reachWhen hr) hs

theorem lineage_of_reachable {x : Kernel n × Family} (hr : (familyMachine n).Reachable x) :
    x.1.Lineage x.2 := by
  refine hr.invariant (I := fun x => x.1.Lineage x.2) ?_ ?_
  · rintro ⟨s, h⟩ ⟨h0, rfl⟩
    obtain rfl : s = boot n := h0
    exact boot_lineage n
  · rintro ⟨s, h⟩ a ⟨s', h'⟩ hx hl - hs
    obtain ⟨hs, rfl⟩ := Machine.observe_step.mp hs
    have hk := Machine.ReachWhen.of_observe (C := fun _ _ => True) hx
    exact hl.step (placed_of_reachWhen hk) (waits_of_reachable hk) hs

/-- What a kwait returns : a ZOMBIE child of its caller, which made it or is init after its maker
exited, with its pid and the status it passed to kexit, and the slot free. -/
structure Reaped (s : Kernel n) (h : Family) (p x : Slot) (s' : Kernel n) : Prop where
  parent : (s.mem.proc x).parent = some p
  cares : h.creator x = h.who p ∨ p = Xv6.initproc ∧ h.creator x ∈ h.exited
  zombie : (s.mem.proc x).state = .zombie
  exited : h.who x ∈ h.exited
  freed : (s'.mem.proc x).state = .unused
  ret : (s'.thread p).ret = (s.mem.proc x).pid
  stored : ∃ addr havekids todo, (s.thread p).pc = .waitScan addr havekids (x :: todo) ∧
    (addr = true → ∃ st, h.status x = some st ∧ (s'.thread p).stored = some st)

theorem Lineage.reaped {x : Slot} (hl : s.Lineage h) (hplaced : s.Placed) (hw : s.Waits)
    (hs : s.step c a = some s') (hev : s.event c a = some (.reap p x)) : s.Reaped h p x s' := by
  cases hw.kin hplaced hs with
  | reap q y addr havekids todo hrun hpc hparent hx hlock hproc hgoes hret hstored hev' =>
    rw [hev', Option.some.injEq, FamilyEvent.reap.injEq] at hev
    obtain ⟨rfl, rfl⟩ := hev
    refine ⟨hparent, ?_, hx, (hl.zombie y hx).2, by rw [hproc, update_self]; rfl, hret,
      addr, havekids, todo, hpc, fun haddr => ⟨_, (hl.zombie y hx).1, hstored haddr⟩⟩
    obtain hc | ⟨hq, hc | ⟨t, ht, hst, -⟩⟩ := hl.cares y q hparent
    · exact Or.inl hc
    · exact Or.inr ⟨hq, hc⟩
    · obtain rfl := Option.some.inj (ht.symm.trans (hw.holder hplaced hrun (by rw [hpc]; rfl)))
      simp [hpc, ThreadPc.exitStatus] at hst
  | unrelated hlock hproc hpc hstatus hev' =>
    obtain hev' | ⟨r, st, hev', -⟩ := hev' <;> simp [hev'] at hev
  | _ => simp_all

/-- The kwait of `p` has found its ZOMBIE child `x`, and the copy of the status fails. -/
def CopyFails (s : Kernel n) (c : Fin n) (a : KAct) (p x : Slot) : Prop :=
  ∃ havekids todo, a = .run false ∧ (s.cpu c).proc = some p ∧
    (s.thread p).pc = .waitScan true havekids (x :: todo) ∧ (s.mem.proc x).parent = some p ∧
    (s.mem.proc x).state = .zombie

theorem CopyFails.step {x : Slot} (hf : s.CopyFails c a p x) (hs : s.step c a = some s') :
    s'.mem.proc = s.mem.proc ∧ (s'.thread p).ret = -1 := by
  obtain ⟨havekids, todo, rfl, hrun, hpc, hparent, hx⟩ := hf
  cases hi : (s.cpu c).intr with
  | some i => simp [Kernel.step, hi] at hs
  | none =>
    simp only [Kernel.step, hi, hrun, Kernel.run, hpc, hparent, hx, if_true, Kernel.reap,
      Option.some.injEq] at hs
    subst hs
    exact ⟨rfl, by simp [ret, setThread]⟩

/-- A kwait that returns has returned a child, or -1. -/
theorem Kin.returns (hkin : Kin s c a s') (hw : s.Waits) (hlock : s.mem.waitLock = some p)
    (hpc' : (s'.thread p).pc = .user) :
    (∃ x, s.event c a = some (.reap p x)) ∨ (s'.thread p).ret = -1 := by
  have hpc := (hw.sect p hlock).holds
  have stays : (s'.thread p).pc = (s.thread p).pc → False := by
    intro heq
    rw [← heq, hpc'] at hpc
    cases hpc
  -- the thread that moves is that of `p`
  have mover : ∀ {r pc}, s.Goes s' r pc → p = r ∧ pc = .user := by
    intro r pc hgoes
    by_cases hpr : p = r
    · exact ⟨hpr, by rw [← hgoes.self, ← hpr, hpc']⟩
    · exact (stays (hgoes.other hpr)).elim
  cases hkin with
  | unrelated _ _ hcalm => exact (stays ((hcalm p).holds (Or.inl hpc))).elim
  | alloc r x todo q pid hrun hr hx _ _ _ _ hgoes =>
    rw [hgoes] at hpc' stays
    split_ifs at hpc' stays with hpr hpx
    · have hlive := hw.live p hlock
      rw [hpx, hx] at hlive
      cases hlive
    · exact (stays rfl).elim
  | reparent r x st todo hrun hr _ hcase =>
    obtain ⟨-, -, hgoes⟩ | ⟨-, -, hgoes⟩ := hcase
    · cases (mover hgoes).2
    · cases (mover hgoes).2
  | enter r pc hrun _ _ hr _ _ _ hgoes =>
    obtain ⟨_, -, rfl⟩ | ⟨_, -, rfl⟩ := hr
    · cases (mover hgoes).2
    · cases (mover hgoes).2
  | woken r chan next hrun hr hnext _ _ hgoes =>
    rw [(mover hgoes).2] at hnext
    cases hnext
  | zombie r st hrun hr _ _ hgoes => exact (stays (hgoes p)).elim
  | scanned r addr pc hrun hr _ _ hgoes =>
    obtain ⟨_, -, rfl⟩ | ⟨-, rfl⟩ := hr
    · cases (mover hgoes).2
    · cases (mover hgoes).2
  | parent _ _ _ _ _ _ _ _ hgoes | rouse _ _ _ _ _ _ hgoes | wake _ _ _ _ _ _ _ _ _ _ hgoes
  | scan _ _ _ _ _ _ _ _ _ _ _ hgoes | sleep _ _ _ _ _ _ hgoes => cases (mover hgoes).2
  | fail r hrun hr _ _ hgoes hret => exact Or.inr ((mover hgoes).1 ▸ hret)
  | reap r x addr havekids todo hrun hr hparent hx _ _ hgoes hret hstored hev =>
    exact Or.inl ⟨x, (mover hgoes).1 ▸ hev⟩

end Kernel

end Xv6
