import Xv6.Kernel
import Xv6.Least

/-!
# A round of the scheduler

What one round of `scheduler()` computes when nothing runs in between, as it is on a single
CPU. The purpose of the three selection passes is `Mem.pick` : the child of a test with the least
pid that the thermal gate lets through, else the coolest process the gate lets through, the first in
the table if there are several, else the first RUNNABLE process. Before it every idle process
cools down (`Mem.decayed`), after it every RUNNABLE process that was not chosen has waited
one round more (`Mem.aged`).

`spins_round` says that a CPU at the top of the loop, below the throttle, gets to STEP 5 with just
that. It is proved from the scans, each of which is a fold over the table (`scan`).
-/

namespace Xv6

/-- The memory as far as processes can see it is the same. -/
structure Mem.SameTable (m m' : Mem) : Prop where
  proc : m'.proc = m.proc
  cpuTemp : m'.cpuTemp = m.cpuTemp
  nextpid : m'.nextpid = m.nextpid
  waitLock : m'.waitLock = m.waitLock

namespace Mem

theorem SameTable.refl (m : Mem) : m.SameTable m :=
  ⟨rfl, rfl, rfl, rfl⟩

theorem SameTable.trans {m m' m'' : Mem} (h : m.SameTable m') (h' : m'.SameTable m'') :
    m.SameTable m'' :=
  ⟨h'.proc.trans h.proc, h'.cpuTemp.trans h.cpuTemp, h'.nextpid.trans h.nextpid,
    h'.waitLock.trans h.waitLock⟩

/-- STEP 1 for the whole table. -/
def decayed (m : Mem) : Mem :=
  { m with proc := fun p => (m.proc p).decay }

/-- STEP 4 for the whole table. -/
def aged (m : Mem) (chosen : Option Slot) : Mem :=
  { m with proc := fun p =>
      if (m.proc p).state = .runnable ∧ chosen ≠ some p then
        { m.proc p with waitingTick := (m.proc p).waitingTick + 1 }
      else m.proc p }

/-- RUNNABLE, and let through by the thermal gate. -/
def eligible (m : Mem) (p : Slot) : Bool :=
  (m.proc p).state == .runnable && !(m.proc p).dominated m.cpuTemp

/-- The process that a round chooses. -/
def pick (m : Mem) : Option Slot :=
  (leastBy (fun p => m.eligible p && m.testChild p) (fun p => (m.proc p).pid) table).or
    ((leastBy m.eligible (fun p => (m.proc p).heat) table).or
      (table.find? fun p => (m.proc p).state == .runnable))

end Mem

/-- A scan of the slots in the list, and what follows it. -/
def scan (pass : Pass) : List Slot → Mem → Locals → Mem × Locals × SchedPc
  | [], m, l => afterScan pass m l
  | p :: todo, m, l =>
    match visit pass p m l with
    | (m, l, true) => afterScan pass m l
    | (m, l, false) => scan pass todo m l

/-! ## The scans -/

theorem scan_step0 (todo : List Slot) (m : Mem) (l : Locals) : ∃ m' l',
    scan .step0 todo m l = (m', l', .scan .step1 table) ∧ m.SameTable m' ∧ l'.chosen = l.chosen ∧
      l'.skipped = l.skipped ∧ (m'.tm = m.tm ∨ m'.tm = Tm.reset) := by
  have hafter : ∀ l₁ : Locals, l₁.chosen = l.chosen → l₁.skipped = l.skipped → ∃ m' l',
      afterScan .step0 m l₁ = (m', l', .scan .step1 table) ∧ m.SameTable m' ∧ l'.chosen = l.chosen ∧
        l'.skipped = l.skipped ∧ (m'.tm = m.tm ∨ m'.tm = Tm.reset) := by
    intro l₁ hl hskip
    unfold afterScan
    dsimp only
    split_ifs
    · exact ⟨m, l₁, rfl, .refl m, hl, hskip, Or.inl rfl⟩
    · exact ⟨_, l₁, rfl, ⟨rfl, rfl, rfl, rfl⟩, hl, hskip, Or.inr rfl⟩
  induction todo with
  | nil => exact hafter l rfl rfl
  | cons p todo ih =>
    unfold scan
    simp only [visit, visit0]
    split_ifs
    · exact hafter _ rfl rfl
    · exact ih

theorem scan_step1 (todo : List Slot) (hnd : todo.Nodup) (m : Mem) (l : Locals) :
    scan .step1 todo m l =
      ({ m with proc := fun p => if p ∈ todo then (m.proc p).decay else m.proc p }, l, .step2) := by
  induction todo generalizing m with
  | nil => simp [scan, afterScan]
  | cons p todo ih =>
    obtain ⟨hp, hnd⟩ := List.nodup_cons.mp hnd
    simp only [scan, visit, visit1]
    rw [ih hnd]
    have hproc : (fun x => if x ∈ todo then ((m.setProc p (m.proc p).decay).proc x).decay
        else (m.setProc p (m.proc p).decay).proc x) =
        fun x => if x ∈ p :: todo then (m.proc x).decay else m.proc x := by
      funext x
      by_cases hx : x = p
      · subst hx
        simp [hp, Mem.setProc]
      · simp [hx, Mem.setProc]
    rw [hproc]
    rfl

theorem scan_step4 (todo : List Slot) (hnd : todo.Nodup) (m : Mem) (l : Locals) :
    scan .step4 todo m l =
      ({ m with proc := fun p => if p ∈ todo then (m.aged l.chosen).proc p else m.proc p },
        l, .step5) := by
  induction todo generalizing m with
  | nil => simp [scan, afterScan]
  | cons p todo ih =>
    obtain ⟨hp, hnd⟩ := List.nodup_cons.mp hnd
    simp only [scan, visit, visit4]
    by_cases hr : (m.proc p).state = .runnable ∧ l.chosen ≠ some p
    · rw [if_pos hr]
      dsimp only
      rw [ih hnd]
      refine Prod.ext ?_ rfl
      simp only [Mem.setProc, Mem.mk.injEq, and_true]
      funext x
      by_cases hx : x = p
      · subst hx
        simp [hp, Mem.aged, hr]
      · simp [hx, Mem.aged]
    · rw [if_neg hr]
      dsimp only
      rw [ih hnd]
      refine Prod.ext ?_ rfl
      simp only [Mem.mk.injEq, and_true]
      funext x
      by_cases hx : x = p
      · subst hx
        simp only [hp, if_false, List.mem_cons_self, if_true, Mem.aged, if_neg hr]
      · simp [hx]

theorem scan_passC (todo : List Slot) (m : Mem) (l : Locals) : scan .passC todo m l =
    (m, { l with chosen := (todo.find? fun p => (m.proc p).state == .runnable).or l.chosen },
      .scan .step4 table) := by
  induction todo with
  | nil => simp [scan, afterScan]
  | cons p todo ih =>
    simp only [scan, visit, visitC]
    by_cases hr : (m.proc p).state = .runnable
    · simp [hr, afterScan]
    · simp [hr, ih]

/-- Pass A for one slot. -/
theorem visitA_spec (p : Slot) (m : Mem) (l : Locals) : ∃ m' l',
    visitA p m l = (m', l', false) ∧ m.SameTable m' ∧ l'.chosen =
      if m.eligible p && m.testChild p then
        keepLess (fun q => (m.proc q).pid) l.chosen p
      else l.chosen := by
  unfold visitA
  dsimp only
  by_cases hr : (m.proc p).state = .runnable
  · by_cases hd : (m.proc p).dominated m.cpuTemp = true
    · simp only [hr, ne_eq, not_true_eq_false, if_false, hd, if_true, Mem.eligible, Bool.not_true,
        Bool.and_false, Bool.false_and, Bool.false_eq_true]
      split_ifs
      · exact ⟨_, _, rfl, ⟨rfl, rfl, rfl, rfl⟩, rfl⟩
      · exact ⟨_, _, rfl, ⟨rfl, rfl, rfl, rfl⟩, rfl⟩
    · by_cases ht : m.testChild p = true
      · simp only [hr, ne_eq, not_true_eq_false, if_false, hd, if_true, Mem.eligible, ht]
        refine ⟨_, _, rfl, ?_, ?_⟩
        · unfold choose
          cases l.chosen <;> exact ⟨rfl, rfl, rfl, rfl⟩
        · simp only [beq_self_eq_true, Bool.and_true, Bool.not_false, if_true, choose]
          cases hc : l.chosen with
          | none => rfl
          | some q =>
            simp only [keepLess]
            split_ifs <;> simp [hc]
      · simp only [hr, ne_eq, not_true_eq_false, if_false, hd, Mem.eligible, ht, Bool.and_false,
          Bool.false_eq_true]
        exact ⟨_, _, rfl, .refl m, rfl⟩
  · refine ⟨m, l, ?_, .refl m, ?_⟩
    · simp [hr]
    · simp [Mem.eligible, hr]

/-- Pass B for one slot. -/
theorem visitB_spec (p : Slot) (m : Mem) (l : Locals) : ∃ m' l',
    visitB p m l = (m', l', false) ∧ m.SameTable m' ∧
      (l'.chosen, l'.lowestHeat) =
        if m.eligible p ∧ (m.proc p).heat < l.lowestHeat then (some p, (m.proc p).heat)
        else (l.chosen, l.lowestHeat) := by
  unfold visitB
  dsimp only
  by_cases hr : (m.proc p).state = .runnable
  · by_cases hd : (m.proc p).dominated m.cpuTemp = true
    · simp only [hr, hd, ne_eq, not_true_eq_false, if_false, if_true, Mem.eligible, Bool.not_true,
        Bool.and_false, Bool.false_eq_true, false_and]
      exact ⟨_, _, rfl, ⟨rfl, rfl, rfl, rfl⟩, rfl⟩
    · by_cases hh : (m.proc p).heat < l.lowestHeat
      · refine ⟨_, _, by simp only [hr, hd, hh, ne_eq, not_true_eq_false, if_false, if_true]; rfl,
          .refl m, ?_⟩
        simp [Mem.eligible, hr, hd, hh]
      · refine ⟨_, _, by simp only [hr, hd, hh, ne_eq, not_true_eq_false, if_false]; rfl, .refl m, ?_⟩
        simp [hh]
  · exact ⟨m, l, by simp [hr], .refl m, by simp [Mem.eligible, hr]⟩

theorem Mem.SameTable.eligible {m m' : Mem} (h : m.SameTable m') : m'.eligible = m.eligible := by
  funext p
  simp only [Mem.eligible, h.proc, h.cpuTemp]

theorem Mem.SameTable.testChild {m m' : Mem} (h : m.SameTable m') :
    m'.testChild = m.testChild := by
  funext p
  simp only [Mem.testChild, h.proc]

theorem scan_passA (todo : List Slot) (m : Mem) (l : Locals) : ∃ m' l',
    scan .passA todo m l = afterScan .passA m' l' ∧ m.SameTable m' ∧ l'.chosen =
      (todo.filter fun p => m.eligible p && m.testChild p).foldl
        (keepLess fun p => (m.proc p).pid) l.chosen := by
  induction todo generalizing m l with
  | nil => exact ⟨m, l, rfl, .refl m, rfl⟩
  | cons p todo ih =>
    obtain ⟨m₁, l₁, hv, hm, hl⟩ := visitA_spec p m l
    obtain ⟨m', l', hs, hm', hl'⟩ := ih m₁ l₁
    refine ⟨m', l', ?_, hm.trans hm', ?_⟩
    · simp only [scan, visit, hv]
      exact hs
    · rw [hl', hm.eligible, hm.testChild, hm.proc, hl, List.filter_cons]
      split_ifs <;> rfl

/-- What Pass B has chosen, and its heat. -/
def Locals.Lowest (l : Locals) (m : Mem) : Prop :=
  match l.chosen with
  | none => l.lowestHeat = MAX_HEAT + 1
  | some p => l.lowestHeat = (m.proc p).heat

/-- Pass B takes a slot just when `keepLess` takes it. -/
theorem visitB_lowest (p : Slot) (m : Mem) (l : Locals) (hl : l.Lowest m)
    (hheat : m.eligible p → (m.proc p).heat ≤ MAX_HEAT) : ∃ m' l',
    visitB p m l = (m', l', false) ∧ m.SameTable m' ∧ l'.Lowest m' ∧ l'.chosen =
      if m.eligible p then
        keepLess (fun q => (m.proc q).heat) l.chosen p
      else l.chosen := by
  obtain ⟨m', l', hv, hm, hc⟩ := visitB_spec p m l
  refine ⟨m', l', hv, hm, ?_⟩
  unfold Locals.Lowest at hl ⊢
  by_cases he : m.eligible p = true
  · rw [if_pos he]
    by_cases hh : (m.proc p).heat < l.lowestHeat
    · rw [if_pos ⟨he, hh⟩, Prod.mk.injEq] at hc
      rw [hc.1, hm.proc]
      refine ⟨hc.2, ?_⟩
      cases hcho : l.chosen with
      | none => rfl
      | some q =>
        rw [hcho] at hl
        simp only at hl
        simp [keepLess, ← hl, hh]
    · rw [if_neg (fun h => hh h.2), Prod.mk.injEq] at hc
      rw [hc.1, hc.2, hm.proc]
      refine ⟨hl, ?_⟩
      cases hcho : l.chosen with
      | none =>
        rw [hcho] at hl
        simp only at hl
        have := hheat he
        omega
      | some q =>
        rw [hcho] at hl
        simp only at hl
        simp [keepLess, ← hl, hh]
  · rw [if_neg (fun h => he h.1), Prod.mk.injEq] at hc
    rw [hc.1, hc.2, hm.proc, if_neg he]
    exact ⟨hl, rfl⟩

theorem scan_passB (todo : List Slot) (m : Mem) (l : Locals) (hl : l.Lowest m)
    (hheat : ∀ p, m.eligible p → (m.proc p).heat ≤ MAX_HEAT) : ∃ m' l',
    scan .passB todo m l = afterScan .passB m' l' ∧ m.SameTable m' ∧ l'.chosen =
      (todo.filter m.eligible).foldl
        (keepLess fun p => (m.proc p).heat) l.chosen := by
  induction todo generalizing m l with
  | nil => exact ⟨m, l, rfl, .refl m, rfl⟩
  | cons p todo ih =>
    obtain ⟨m₁, l₁, hv, hm, hl₁, hc⟩ := visitB_lowest p m l hl (hheat p)
    obtain ⟨m', l', hs, hm', hl'⟩ := ih m₁ l₁ hl₁ (by rw [hm.eligible, hm.proc]; exact hheat)
    refine ⟨m', l', ?_, hm.trans hm', ?_⟩
    · simp only [scan, visit, hv]
      exact hs
    · rw [hl', hm.eligible, hm.proc, hc, List.filter_cons]
      split_ifs <;> rfl

/-! ## A whole round -/

theorem mem_table (p : Slot) : p ∈ table :=
  List.mem_finRange p

theorem table_nodup : table.Nodup :=
  List.nodup_finRange NPROC

theorem Mem.SameTable.aged {m m' : Mem} (h : m.SameTable m') (chosen : Option Slot) :
    (m.aged chosen).SameTable (m'.aged chosen) := by
  refine ⟨?_, h.cpuTemp, h.nextpid, h.waitLock⟩
  simp only [Mem.aged, h.proc]

namespace Kernel

variable {n : ℕ} {s : Kernel n} {c : Fin n}

/-- The scheduler of CPU `c` is at `pc`. -/
def inSched (s : Kernel n) (c : Fin n) (m : Mem) (l : Locals) (pc : SchedPc) : Kernel n :=
  { s with mem := m }.setCpu c { s.cpu c with loc := l, pc := pc }

@[simp] theorem inSched_mem (m : Mem) (l : Locals) (pc : SchedPc) :
    (s.inSched c m l pc).mem = m := rfl

@[simp] theorem inSched_thread (m : Mem) (l : Locals) (pc : SchedPc) :
    (s.inSched c m l pc).thread = s.thread := rfl

@[simp] theorem inSched_cpu_self (m : Mem) (l : Locals) (pc : SchedPc) :
    (s.inSched c m l pc).cpu c = { s.cpu c with loc := l, pc := pc } :=
  Function.update_self ..

theorem inSched_cpu_of_ne {d : Fin n} (hd : d ≠ c) (m : Mem) (l : Locals) (pc : SchedPc) :
    (s.inSched c m l pc).cpu d = s.cpu d :=
  Function.update_of_ne hd ..

theorem inSched_self {l : Locals} {pc : SchedPc} (hl : (s.cpu c).loc = l)
    (hpc : (s.cpu c).pc = pc) : s.inSched c s.mem l pc = s := by
  subst hl hpc
  simp only [inSched, setCpu, Function.update_eq_self]

/-- The scheduler of CPU `c` gets from `s` to `s'`, and nothing else runs. -/
abbrev Spins (c : Fin n) : Kernel n → Kernel n → Prop :=
  Relation.ReflTransGen fun s s' => s.step c .sched = some s'

theorem Spins.leads {s s' : Kernel n} (h : Spins c s s') : (kernelMachine n).Leads s s' :=
  h.lift id fun _ _ h => ⟨(c, .sched), h⟩

variable (hidle : (s.cpu c).proc = none) (hintr : (s.cpu c).intr = none)
include hidle hintr

theorem step_inSched {m m' : Mem} {l l' : Locals} {pc pc' : SchedPc}
    (h : schedStep m l pc = some (m', l', pc')) (hpc : pc' ≠ .swtch) :
    (s.inSched c m l pc).step c .sched = some (s.inSched c m' l' pc') := by
  simp only [step, inSched_cpu_self, hidle, hintr, schedule, inSched_mem, h,
    Option.map_some, Option.some.injEq]
  split
  · exact absurd rfl hpc
  · simp [inSched, setCpu, hidle, hintr]

theorem spins_scan (pass : Pass) (todo : List Slot) (m : Mem) (l : Locals) :
    Spins c (s.inSched c m l (.scan pass todo))
      (s.inSched c (scan pass todo m l).1 (scan pass todo m l).2.1 (scan pass todo m l).2.2) := by
  have hafter : ∀ todo m₀ l₀ m₁ l₁, schedStep m₀ l₀ (.scan pass todo) = some (afterScan pass m₁ l₁) →
      Spins c (s.inSched c m₀ l₀ (.scan pass todo))
        (s.inSched c (afterScan pass m₁ l₁).1 (afterScan pass m₁ l₁).2.1
          (afterScan pass m₁ l₁).2.2) := fun _ _ _ m₁ l₁ h =>
    .single (step_inSched hidle hintr h (afterScan_pc pass m₁ l₁))
  induction todo generalizing m l with
  | nil => exact hafter [] m l m l rfl
  | cons p todo ih =>
    unfold scan
    rcases hv : visit pass p m l with ⟨m₁, l₁, _ | _⟩
    · have hstep : schedStep m l (.scan pass (p :: todo)) = some (m₁, l₁, .scan pass todo) := by
        simp only [schedStep, hv]
      exact .head (step_inSched hidle hintr hstep (by simp)) (ih m₁ l₁)
    · exact hafter (p :: todo) m l m₁ l₁ (by simp only [schedStep, hv])

theorem spins_step4 (m : Mem) (l : Locals) :
    Spins c (s.inSched c m l (.scan .step4 table))
      (s.inSched c (m.aged l.chosen) l .step5) := by
  have h := spins_scan hidle hintr .step4 table m l
  rw [scan_step4 table table_nodup] at h
  simpa only [mem_table, if_true, Mem.aged] using h

/-- Pass B, Pass C and STEP 4. -/
theorem spins_passB {m : Mem} {l : Locals} (hl : l.chosen = none)
    (hlow : l.lowestHeat = MAX_HEAT + 1)
    (hheat : ∀ p, m.eligible p → (m.proc p).heat ≤ MAX_HEAT) {chosen : Option Slot}
    (hchosen : chosen = (leastBy m.eligible (fun p => (m.proc p).heat) table).or
      (table.find? fun p => (m.proc p).state == .runnable)) :
    ∃ m' l', Spins c (s.inSched c m l (.scan .passB table))
      (s.inSched c m' l' .step5) ∧ (m.aged chosen).SameTable m' ∧ l'.chosen = chosen := by
  obtain ⟨m₁, l₁, hB, hm, hc⟩ := scan_passB table m l (by simp [Locals.Lowest, hl, hlow]) hheat
  have hlead := spins_scan hidle hintr .passB table m l
  rw [hB] at hlead
  rw [hl] at hc
  rw [leastBy, ← hc] at hchosen
  cases hc₁ : l₁.chosen with
  | some p =>
    rw [hc₁, Option.some_or] at hchosen
    simp only [afterScan, hc₁] at hlead
    refine ⟨m₁.aged l₁.chosen, l₁, hlead.trans (spins_step4 hidle hintr m₁ l₁), ?_, ?_⟩
    · rw [hchosen, hc₁]
      exact hm.aged _
    · rw [hchosen, hc₁]
  | none =>
    rw [hc₁, Option.none_or] at hchosen
    simp only [afterScan, hc₁] at hlead
    have hleadC := spins_scan hidle hintr .passC table m₁ l₁
    rw [scan_passC, hm.proc, hc₁, Option.or_none, ← hchosen] at hleadC
    exact ⟨_, _, hlead.trans (hleadC.trans (spins_step4 hidle hintr m₁ _)), hm.aged _, rfl⟩

/-- The three passes and STEP 4. -/
theorem spins_select {m : Mem} {l : Locals} (hl : l.chosen = none)
    (hheat : ∀ p, m.eligible p → (m.proc p).heat ≤ MAX_HEAT) :
    ∃ m' l', Spins c (s.inSched c m l (.scan .passA table))
      (s.inSched c m' l' .step5) ∧ (m.aged m.pick).SameTable m' ∧ l'.chosen = m.pick := by
  obtain ⟨m₁, l₁, hA, hm, hc⟩ := scan_passA table m l
  have hlead := spins_scan hidle hintr .passA table m l
  rw [hA] at hlead
  rw [hl] at hc
  have hpick : m.pick = l₁.chosen.or ((leastBy m.eligible (fun p => (m.proc p).heat) table).or
      (table.find? fun p => (m.proc p).state == .runnable)) := by
    rw [hc]
    rfl
  cases hc₁ : l₁.chosen with
  | some p =>
    rw [hc₁, Option.some_or] at hpick
    simp only [afterScan, hc₁] at hlead
    refine ⟨m₁.aged l₁.chosen, l₁, hlead.trans (spins_step4 hidle hintr m₁ l₁), ?_, ?_⟩
    · rw [hpick, hc₁]
      exact hm.aged _
    · rw [hpick, hc₁]
  | none =>
    rw [hc₁, Option.none_or, ← hm.eligible, ← hm.proc] at hpick
    simp only [afterScan, hc₁] at hlead
    obtain ⟨m', l', hleadB, hm', hl'⟩ := spins_passB hidle hintr (m := m₁)
      (l := { l₁ with chosen := none, lowestHeat := MAX_HEAT + 1 }) rfl rfl
      (by rw [hm.eligible, hm.proc]; exact hheat) hpick
    exact ⟨m', l', hlead.trans hleadB, (hm.aged _).trans hm', hl'⟩

/-- From the top of the loop to STEP 2. -/
theorem spins_step2 (hpc : (s.cpu c).pc = .top) : ∃ m l, Spins c s (s.inSched c m l .step2) ∧
    s.mem.decayed.SameTable m ∧ l.chosen = none ∧ l.skipped = 0 ∧ (m.tm = s.mem.tm ∨ m.tm = Tm.reset) := by
  -- to STEP 1
  obtain ⟨m₁, l₁, hlead₁, hm₁, hl₁⟩ : ∃ m l, Spins c s (s.inSched c m l (.scan .step1 table)) ∧ s.mem.SameTable m ∧
      l.chosen = none ∧ l.skipped = 0 ∧ (m.tm = s.mem.tm ∨ m.tm = Tm.reset) := by
    set m₀ : Mem := { s.mem with schedRound := s.mem.schedRound + 1 } with hm₀
    set l₀ : Locals := { (s.cpu c).loc with chosen := none, skipped := 0, stillActive := false }
    have hstep : schedStep s.mem (s.cpu c).loc .top = some (m₀, l₀,
        .scan (if m₀.tm.hadChildren && !m₀.summaryPrinted then .step0 else .step1) table) := rfl
    have htop := step_inSched hidle hintr hstep (by simp)
    rw [inSched_self rfl hpc] at htop
    have hsame : s.mem.SameTable m₀ := ⟨rfl, rfl, rfl, rfl⟩
    by_cases h0 : (m₀.tm.hadChildren && !m₀.summaryPrinted) = true
    · rw [if_pos h0] at htop
      obtain ⟨m', l', hs, hm', hl'⟩ := scan_step0 table m₀ l₀
      have hlead := spins_scan hidle hintr .step0 table m₀ l₀
      rw [hs] at hlead
      exact ⟨m', l', .head htop hlead, hsame.trans hm', hl'⟩
    · rw [if_neg h0] at htop
      exact ⟨m₀, l₀, .single htop, hsame, rfl, rfl, Or.inl rfl⟩
  have hlead₂ := spins_scan hidle hintr .step1 table m₁ l₁
  rw [scan_step1 table table_nodup] at hlead₂
  simp only [mem_table, if_true] at hlead₂
  have hm₂ : s.mem.decayed.SameTable m₁.decayed :=
    ⟨by simp only [Mem.decayed, hm₁.proc], hm₁.cpuTemp, hm₁.nextpid, hm₁.waitLock⟩
  exact ⟨m₁.decayed, l₁, hlead₁.trans hlead₂, hm₂, hl₁⟩

/-- STEP 2 below the throttle. -/
theorem step2_select {m : Mem} {l : Locals} (htemp : m.cpuTemp < THROTTLE_TEMP) :
    (s.inSched c m l .step2).step c .sched = some (s.inSched c m l (.scan .passA table)) := by
  refine step_inSched hidle hintr ?_ (by simp)
  simp only [schedStep, if_neg (Int.not_le.mpr htemp)]

/-- From the top of the loop, below the throttle, to STEP 5. -/
theorem spins_round (hpc : (s.cpu c).pc = .top) (htemp : s.mem.cpuTemp < THROTTLE_TEMP)
    (hheat : ∀ p, (s.mem.proc p).decay.heat ≤ MAX_HEAT) :
    ∃ m l, Spins c s (s.inSched c m l .step5) ∧
      (s.mem.decayed.aged s.mem.decayed.pick).SameTable m ∧ l.chosen = s.mem.decayed.pick := by
  obtain ⟨m₂, l₂, hlead₂, hm₂, hl₂, -⟩ := spins_step2 hidle hintr hpc
  have hstep2 := step2_select hidle hintr (m := m₂) (l := l₂) (by rw [hm₂.cpuTemp]; exact htemp)
  obtain ⟨m', l', hlead₃, hm', hl'⟩ := spins_select hidle hintr (m := m₂) hl₂ (fun p _ => by
    rw [hm₂.proc]
    exact hheat p)
  have hpick : m₂.pick = s.mem.decayed.pick := by
    simp only [Mem.pick, hm₂.eligible, hm₂.testChild, hm₂.proc]
  rw [hpick] at hm' hl'
  exact ⟨m', l', hlead₂.trans (.head hstep2 hlead₃), (hm₂.aged _).trans hm', hl'⟩

end Kernel

end Xv6
