import Mathlib.Algebra.GroupWithZero.Nat
import Xv6.Machine
import Xv6.Scheduler

/-!
# The summary of a test run

The schedulers of all CPUs share `tm_had_children`, which says that a thermal test runs, and
`summary_printed`, which says that its summary has been printed; neither has a lock. STEP 0 reads
both, and prints the summary when no child of a test is left; Pass A sets the first, and clears the
second when a run begins. Here every access to one of them is a step of its own, as is every
critical section of a slot's lock, and the steps of the CPUs interleave.

The parts of a round that do not look at the two flags (STEP 1, Passes B and C, STEP 4 and STEP 5) and
all that the processes do in the meantime change the rest of the memory; `FlagAct.env` stands for them.

`set BEFORE printing to block other CPUs`, says the comment at the store; but the test at the
beginning of STEP 0 and this store are far apart, and a second CPU that makes the test in between prints a
second summary (`summary_printed_twice`).
-/

namespace Xv6

/-- Where a CPU is among the accesses to the flags. -/
inductive FlagPc
  /-- STEP 0 : `tm_had_children`. -/
  | top
  /-- STEP 0 : `!summary_printed`. -/
  | guard
  /-- STEP 0 at the head of the list. -/
  | scan (todo : List Slot)
  /-- STEP 0 : `summary_printed = 1`. -/
  | mark
  /-- STEP 0 : `tm_print_summary()`. -/
  | print
  /-- STEP 0 : `tm_reset()`. -/
  | reset
  /-- STEP 1 and STEP 2. -/
  | step2
  /-- Pass A at the head of the list. -/
  | passA (todo : List Slot)
  /-- Pass A, in the section of `p->lock` : `!tm_had_children`. -/
  | load (p : Slot) (todo : List Slot)
  /-- Pass A, in the section of `p->lock` : `summary_printed = 0`. -/
  | clear (p : Slot) (todo : List Slot)
  /-- Pass A, in the section of `p->lock` : `tm_had_children = 1`. -/
  | set (p : Slot) (todo : List Slot)
  /-- The rest of the round. -/
  | rest
  deriving DecidableEq, Repr

namespace FlagPc

/-- The slot whose lock is held between two steps. -/
def holds : FlagPc → Option Slot
  | load p _ | clear p _ | set p _ => some p
  | _ => none

/-- In STEP 0, with `tm_had_children` read as 1. -/
def inStep0 : FlagPc → Bool
  | guard | scan _ | mark | print | reset => true
  | _ => false

/-- In Pass A, with `tm_had_children` read. -/
def inPassA : FlagPc → Bool
  | clear _ _ | set _ _ => true
  | _ => false

end FlagPc

/-- The memory, and where each CPU is. -/
structure Flags (n : ℕ) where
  mem : Mem
  pc : Fin n → FlagPc

inductive FlagAct (n : ℕ)
  /-- The next step of CPU `c`. -/
  | run (c : Fin n)
  /-- The rest of the kernel changes the process table and the temperature. -/
  | env (proc : Slot → Proc) (cpuTemp : Int)

namespace Flags

variable {n : ℕ}

def goto (s : Flags n) (c : Fin n) (pc : FlagPc) : Flags n :=
  { s with pc := Function.update s.pc c pc }

/-- `p->lock` is free. -/
def free (s : Flags n) (p : Slot) : Bool :=
  (List.finRange n).all fun d => (s.pc d).holds != some p

/-- A child of a test is still active. -/
def active (m : Mem) (p : Slot) : Bool :=
  (m.proc p).state ≠ .unused && (m.proc p).state ≠ .zombie && m.testChild p

/-- What Pass A does with `p` before it looks at the flags, and where it goes on. -/
def gate (m : Mem) (p : Slot) (todo : List Slot) : Mem × FlagPc :=
  let q := m.proc p
  if q.state ≠ .runnable then (m, .passA todo)
  else if q.dominated m.cpuTemp then
    let m := { m with tm := m.tm.recordSkip q.pid }
    (if m.logs then m.print (.skipped q.pid q.heat q.waitingTick m.cpuTemp) else m, .passA todo)
  else if m.testChild p then (m, .load p todo)
  else (m, .passA todo)

/-- The next step of CPU `c`. -/
def run (s : Flags n) (c : Fin n) : Option (Flags n) :=
  match s.pc c with
  | .top =>
    some ({ s with mem := { s.mem with schedRound := s.mem.schedRound + 1 } }.goto c
      (if s.mem.tm.hadChildren then .guard else .step2))
  | .guard => some (s.goto c (if s.mem.summaryPrinted then .step2 else .scan table))
  | .scan [] => some (s.goto c .mark)
  | .scan (p :: todo) =>
    if s.free p then some (s.goto c (if active s.mem p then .step2 else .scan todo)) else none
  | .mark => some ({ s with mem := { s.mem with summaryPrinted := true } }.goto c .print)
  | .print => some ({ s with mem := s.mem.print (.summary s.mem.tm) }.goto c .reset)
  | .reset => some ({ s with mem := { s.mem with tm := Tm.reset } }.goto c .step2)
  | .step2 =>
    some (if s.mem.cpuTemp ≥ THROTTLE_TEMP then { s with mem := throttle s.mem }.goto c .top
      else s.goto c (.passA table))
  | .passA [] => some (s.goto c .rest)
  | .passA (p :: todo) =>
    if s.free p then
      let (m, pc) := gate s.mem p todo
      some ({ s with mem := m }.goto c pc)
    else none
  | .load p todo => some (s.goto c (if s.mem.tm.hadChildren then .set p todo else .clear p todo))
  | .clear p todo => some ({ s with mem := { s.mem with summaryPrinted := false } }.goto c (.set p todo))
  | .set _ todo =>
    some ({ s with mem := { s.mem with tm := { s.mem.tm with hadChildren := true } } }.goto c
      (.passA todo))
  | .rest => some (s.goto c .top)

def step (s : Flags n) : FlagAct n → Option (Flags n)
  | .run c => s.run c
  | .env proc cpuTemp => some { s with mem := { s.mem with proc := proc, cpuTemp := cpuTemp } }

/-- The summaries printed since `tm_had_children` last went from 0 to 1. -/
def summaries (k : ℕ) (s : Flags n) : FlagAct n → ℕ
  | .run c =>
    match s.pc c with
    | .print => k + 1
    | .set _ _ => if s.mem.tm.hadChildren then k else 0
    | _ => k
  | .env _ _ => k

/-- Every CPU at the top of its loop, in the memory of boot. -/
def Init (s : Flags n) : Prop :=
  s.mem.tm.hadChildren = false ∧ s.mem.summaryPrinted = false ∧ ∀ c, s.pc c = .top

/-- No other CPU is between a read of `tm_had_children` and what it does upon it : at
the test of STEP 0 no CPU in STEP 0 or Pass A, and at the test of Pass A none in STEP 0. -/
def Alone (s : Flags n) : FlagAct n → Prop
  | .run c =>
    (s.pc c = .top → s.mem.tm.hadChildren = true → ∀ d ≠ c, (s.pc d).inStep0 = false ∧
      (s.pc d).inPassA = false) ∧
    ∀ p todo, s.pc c = .load p todo → ∀ d ≠ c, (s.pc d).inStep0 = false
  | .env _ _ => True

end Flags

/-- The schedulers of `n` CPUs, with the number of summaries since the last run began. -/
def flagMachine (n : ℕ) : Machine (Flags n × ℕ) (FlagAct n) :=
  (⟨Flags.Init, Flags.step⟩ : Machine (Flags n) (FlagAct n)).observe 0 Flags.summaries

namespace Flags

variable {n : ℕ}

/-- What a CPU at `pc` knows of the flags and of the number of summaries. -/
def Place (m : Mem) (k : ℕ) : FlagPc → Prop
  | .scan _ | .mark => m.tm.hadChildren = true ∧ m.summaryPrinted = false
  | .print => k = 0 ∧ m.summaryPrinted = true
  | .clear _ _ => m.tm.hadChildren = true → k = 0
  | .guard => m.tm.hadChildren = true
  | _ => True

/-- STEP 0 is in progress on one CPU at most, and on none while another is in Pass A; the summary of a
run can still be printed only if it has not been. -/
structure Once (s : Flags n) (k : ℕ) : Prop where
  step0 : ∀ c d, d ≠ c → (s.pc c).inStep0 = true →
    (s.pc d).inStep0 = false ∧ (s.pc d).inPassA = false
  place : ∀ c, Place s.mem k (s.pc c)
  fresh : s.mem.tm.hadChildren = true → s.mem.summaryPrinted = false → k = 0
  le : k ≤ 1

variable {s s' : Flags n} {c : Fin n} {k k' : ℕ} {m : Mem} {pc : FlagPc}

/-- Outside STEP 0, only a CPU about to clear `summary_printed` knows anything. -/
theorem place_of_not_inStep0 (h0 : pc.inStep0 = false)
    (hclear : pc.inPassA = true → m.tm.hadChildren = true → k = 0) : Place m k pc := by
  cases pc with
  | guard | scan | mark | print | reset => cases h0
  | clear => exact hclear rfl
  | _ => trivial

/-- CPU `c` goes on at `pc` in the memory `m`. -/
theorem Once.goto (h : s.Once k)
    (hstep0 : pc.inStep0 = true → ∀ d ≠ c, (s.pc d).inStep0 = false ∧ (s.pc d).inPassA = false)
    (hpassA : pc.inPassA = true → ∀ d ≠ c, (s.pc d).inStep0 = false)
    (hplace : Place m k' pc) (hothers : ∀ d ≠ c, Place m k' (s.pc d))
    (hfresh : m.tm.hadChildren = true → m.summaryPrinted = false → k' = 0) (hle : k' ≤ 1) :
    ({ s with mem := m }.goto c pc).Once k' := by
  refine ⟨fun d e hed hd => ?_, fun d => ?_, hfresh, hle⟩
  · simp only [Flags.goto] at hd ⊢
    by_cases hdc : d = c
    · subst hdc
      rw [Function.update_self] at hd
      rw [Function.update_of_ne hed]
      exact hstep0 hd e hed
    · rw [Function.update_of_ne hdc] at hd
      by_cases hec : e = c
      · subst hec
        rw [Function.update_self]
        refine ⟨Bool.eq_false_iff.mpr fun he => ?_, Bool.eq_false_iff.mpr fun he => ?_⟩
        · simp [(hstep0 he d hdc).1] at hd
        · simp [hpassA he d hdc] at hd
      · rw [Function.update_of_ne hec]
        exact h.step0 d e hed hd
  · by_cases hdc : d = c
    · subst hdc
      simpa [Flags.goto] using hplace
    · simpa [Flags.goto, hdc] using hothers d hdc

/-- The flags and the number of summaries stay as they are. -/
theorem Once.keep (h : s.Once k) (hhad : m.tm.hadChildren = s.mem.tm.hadChildren)
    (hprinted : m.summaryPrinted = s.mem.summaryPrinted)
    (hstep0 : pc.inStep0 = true → ∀ d ≠ c, (s.pc d).inStep0 = false ∧ (s.pc d).inPassA = false)
    (hpassA : pc.inPassA = true → ∀ d ≠ c, (s.pc d).inStep0 = false)
    (hplace : Place m k pc) : ({ s with mem := m }.goto c pc).Once k := by
  refine h.goto hstep0 hpassA hplace (fun d _ => ?_) (by rw [hhad, hprinted]; exact h.fresh) h.le
  have hd := h.place d
  unfold Place at hd ⊢
  rwa [hhad, hprinted]

/-- CPU `c` goes on outside the two sections. -/
theorem Once.leave (h : s.Once k) (hhad : m.tm.hadChildren = s.mem.tm.hadChildren)
    (hprinted : m.summaryPrinted = s.mem.summaryPrinted) (h0 : pc.inStep0 = false)
    (hA : pc.inPassA = false) : ({ s with mem := m }.goto c pc).Once k := by
  refine h.keep hhad hprinted (fun hp => ?_) (fun hp => ?_) ?_
  · rw [h0] at hp
    cases hp
  · rw [hA] at hp
    cases hp
  · exact place_of_not_inStep0 h0 fun hp => by rw [hA] at hp; cases hp

theorem hadChildren_find (tm : Tm) (pid : Int) : (tm.find pid).1.hadChildren = tm.hadChildren := by
  unfold Tm.find
  split
  · rfl
  · split <;> rfl

theorem hadChildren_recordSkip (tm : Tm) (pid : Int) :
    (tm.recordSkip pid).hadChildren = tm.hadChildren := by
  have hfind := hadChildren_find tm pid
  unfold Tm.recordSkip
  split
  · next tm' hf => rwa [hf] at hfind
  · next tm' i hf => rwa [hf] at hfind

/-- The gate of Pass A leaves the flags alone. -/
theorem gate_flags (m : Mem) (p : Slot) (todo : List Slot) :
    (gate m p todo).1.tm.hadChildren = m.tm.hadChildren ∧
    (gate m p todo).1.summaryPrinted = m.summaryPrinted ∧
    (gate m p todo).2.inStep0 = false ∧ (gate m p todo).2.inPassA = false := by
  unfold gate
  dsimp only
  split_ifs
  · exact ⟨rfl, rfl, rfl, rfl⟩
  · exact ⟨hadChildren_recordSkip _ _, rfl, rfl, rfl⟩
  · exact ⟨hadChildren_recordSkip _ _, rfl, rfl, rfl⟩
  · exact ⟨rfl, rfl, rfl, rfl⟩
  · exact ⟨rfl, rfl, rfl, rfl⟩

theorem throttle_flags (m : Mem) : (throttle m).tm.hadChildren = m.tm.hadChildren ∧
    (throttle m).summaryPrinted = m.summaryPrinted := by
  unfold throttle
  dsimp only
  split_ifs <;> exact ⟨rfl, rfl⟩

/-- A step of a CPU that is alone between a read of `tm_had_children` and what it does upon it. -/
theorem Once.run (h : s.Once k) (halone : s.Alone (.run c)) (hs : s.run c = some s') :
    s'.Once (summaries k s (.run c)) := by
  have hothers : (s.pc c).inStep0 = true →
      ∀ d ≠ c, (s.pc d).inStep0 = false ∧ (s.pc d).inPassA = false := fun hc d hd =>
    h.step0 c d hd hc
  have houtside : (s.pc c).inStep0 = true → ∀ d ≠ c, ∀ {m k}, Place m k (s.pc d) := fun hc d hd =>
    place_of_not_inStep0 (hothers hc d hd).1 fun hp => by rw [(hothers hc d hd).2] at hp; cases hp
  have hstep0 : (s.pc c).inPassA = true → ∀ d ≠ c, (s.pc d).inStep0 = false := fun hc d hd =>
    Bool.eq_false_iff.mpr fun hp => by simp [(h.step0 d c hd.symm hp).2] at hc
  unfold Flags.run at hs
  unfold summaries
  cases hpc : s.pc c with
  | top =>
    simp only [hpc, Option.some.injEq] at hs ⊢
    subst hs
    cases hhad : s.mem.tm.hadChildren with
    | false => exact h.leave (by simp) rfl rfl rfl
    | true => exact h.keep (by simp) rfl (fun _ => halone.1 hpc hhad) (fun hp => by cases hp) hhad
  | guard =>
    simp only [hpc, Option.some.injEq] at hs ⊢
    subst hs
    rw [hpc] at hothers
    have hplace := h.place c
    rw [hpc] at hplace
    cases hprinted : s.mem.summaryPrinted with
    | true => exact h.leave rfl rfl rfl rfl
    | false => exact h.keep rfl rfl (fun _ => hothers rfl) (fun hp => by cases hp) ⟨hplace, hprinted⟩
  | scan todo =>
    rw [hpc] at hothers
    have hplace := h.place c
    rw [hpc] at hplace
    cases todo with
    | nil =>
      simp only [hpc, Option.some.injEq] at hs ⊢
      subst hs
      exact h.keep rfl rfl (fun _ => hothers rfl) (fun hp => by cases hp) hplace
    | cons p todo =>
      simp only [hpc, Option.ite_none_right_eq_some, Option.some.injEq] at hs ⊢
      obtain ⟨-, rfl⟩ := hs
      split_ifs
      · exact h.leave rfl rfl rfl rfl
      · exact h.keep rfl rfl (fun _ => hothers rfl) (fun hp => by cases hp) hplace
  | mark =>
    simp only [hpc, Option.some.injEq] at hs ⊢
    subst hs
    have hplace := h.place c
    rw [hpc] at hplace hothers houtside
    exact h.goto (fun _ => hothers rfl) (fun hp => by cases hp) ⟨h.fresh hplace.1 hplace.2, rfl⟩
      (fun d hd => houtside rfl d hd) (fun _ hp => by cases hp) h.le
  | print =>
    simp only [hpc, Option.some.injEq] at hs ⊢
    subst hs
    have hplace := h.place c
    rw [hpc] at hplace hothers houtside
    obtain ⟨rfl, hprinted⟩ := hplace
    refine h.goto (fun _ => hothers rfl) (fun hp => by cases hp) trivial
      (fun d hd => houtside rfl d hd) (fun _ hp => ?_) (Nat.le_refl 1)
    simp [Mem.print, hprinted] at hp
  | reset =>
    simp only [hpc, Option.some.injEq] at hs ⊢
    subst hs
    rw [hpc] at houtside
    exact h.goto (fun hp => by cases hp) (fun hp => by cases hp) trivial
      (fun d hd => houtside rfl d hd) (fun hp => by cases hp) h.le
  | step2 =>
    simp only [hpc, Option.some.injEq] at hs ⊢
    subst hs
    split_ifs
    · exact h.leave (throttle_flags _).1 (throttle_flags _).2 rfl rfl
    · exact h.leave rfl rfl rfl rfl
  | passA todo =>
    cases todo with
    | nil =>
      simp only [hpc, Option.some.injEq] at hs ⊢
      subst hs
      exact h.leave rfl rfl rfl rfl
    | cons p todo =>
      simp only [hpc, Option.ite_none_right_eq_some, Option.some.injEq] at hs ⊢
      obtain ⟨-, rfl⟩ := hs
      obtain ⟨hhad, hprinted, h0, hA⟩ := gate_flags s.mem p todo
      exact h.leave hhad hprinted h0 hA
  | load p todo =>
    simp only [hpc, Option.some.injEq] at hs ⊢
    subst hs
    cases hhad : s.mem.tm.hadChildren with
    | false =>
      exact h.keep rfl rfl (fun hp => by cases hp) (fun _ => halone.2 p todo hpc)
        fun hp => by rw [hhad] at hp; cases hp
    | true => exact h.keep rfl rfl (fun hp => by cases hp) (fun _ => halone.2 p todo hpc) trivial
  | clear p todo =>
    simp only [hpc, Option.some.injEq] at hs ⊢
    subst hs
    have hplace := h.place c
    rw [hpc] at hplace hstep0
    exact h.goto (fun hp => by cases hp) (fun _ => hstep0 rfl) trivial
      (fun d hd => place_of_not_inStep0 (hstep0 rfl d hd) fun _ => hplace)
      (fun hhad _ => hplace hhad) h.le
  | set p todo =>
    simp only [hpc, Option.some.injEq] at hs ⊢
    subst hs
    rw [hpc] at hstep0
    cases hhad : s.mem.tm.hadChildren with
    | false =>
      exact h.goto (fun hp => by cases hp) (fun hp => by cases hp) trivial
        (fun d hd => place_of_not_inStep0 (hstep0 rfl d hd) fun _ _ => rfl) (fun _ _ => rfl)
        (Nat.zero_le 1)
    | true => exact h.leave hhad.symm rfl rfl rfl
  | rest =>
    simp only [hpc, Option.some.injEq] at hs ⊢
    subst hs
    exact h.leave rfl rfl rfl rfl

theorem Once.step {a : FlagAct n} (h : s.Once k) (halone : s.Alone a) (hs : s.step a = some s') :
    s'.Once (summaries k s a) := by
  cases a with
  | run c => exact h.run halone hs
  | env proc cpuTemp =>
    obtain rfl := Option.some.inj hs
    exact ⟨h.step0, h.place, h.fresh, h.le⟩

theorem once_init (h : s.Init) : s.Once 0 := by
  obtain ⟨-, -, hpc⟩ := h
  refine ⟨fun c d _ hc => ?_, fun c => ?_, fun _ _ => rfl, Nat.zero_le 1⟩
  · rw [hpc] at hc
    cases hc
  · rw [hpc]
    trivial

/-! ## Runs -/

local instance : NeZero NPROC :=
  ⟨Nat.succ_ne_zero 63⟩

/-- init, a test that waits, and its child in the state given. -/
def testTable (child : ProcState) : Slot → Proc :=
  Function.update (Function.update (Function.update (fun _ => Proc.zero)
    0 { Proc.zero with state := .sleeping, pid := 1, name := ['i', 'n', 'i', 't'] })
    1 { Proc.zero with
      state := .sleeping, pid := 2, parent := some 0
      name := ['s', 'c', 'h', 'e', 'd', 't', 'e', 's', 't'] })
    2 { Proc.zero with state := child, pid := 3, parent := some 1 }

/-- Every CPU at the top of its loop, before the first test. -/
def boot (n : ℕ) : Flags n where
  mem := {
    proc := testTable .runnable
    cpuTemp := 25
    nextpid := 4
    waitLock := none
    ticks := 0
    schedRound := 0
    tm := Tm.boot
    summaryPrinted := false
    console := [] }
  pc _ := .top

theorem boot_init (n : ℕ) : (boot n).Init :=
  ⟨rfl, rfl, fun _ => rfl⟩

/-- CPU `c` finds the child of the test in Pass A; then the child exits. -/
def testRun (c : Fin n) : List (FlagAct n) :=
  List.replicate (2 + NPROC + 3 + 2) (.run c) ++ [.env (testTable .zombie) 25]

/-- STEP 0 of CPU `c` up to the store into `summary_printed`. -/
def step0Run (c : Fin n) : List (FlagAct n) :=
  List.replicate (2 + NPROC + 1) (.run c)

end Flags

open Flags

/-- If at the test of STEP 0 no other CPU is in STEP 0 or in the middle of an update by Pass A, and
at the test of Pass A none is in STEP 0, then one summary at most is printed in a test run. -/
theorem one_summary_of_alone {n : ℕ} {s : Flags n} {k : ℕ}
    (h : (flagMachine n).ReachWhen (fun x a => x.1.Alone a) (s, k)) : k ≤ 1 := by
  have honce : s.Once k := h.invariant (I := fun x => x.1.Once x.2)
    (fun x h0 => h0.2 ▸ once_init h0.1) fun x a y _ hx halone hs => by
      obtain ⟨hs, hk⟩ := Machine.observe_step.mp hs
      rw [hk]
      exact hx.step halone hs
  exact honce.le

/-- On one CPU a test run has its summary. -/
theorem one_summary_one_cpu : ∃ (s : Flags 1) (k : ℕ),
    (flagMachine 1).ReachWhen (fun x a => x.1.Alone a) (s, k) ∧ 0 < k ∧ k ≤ 1 := by
  obtain ⟨⟨s, k⟩, hreach, hk⟩ := Machine.reachable_of_exec (M := flagMachine 1)
    (s := (boot 1, 0)) ⟨boot_init 1, rfl⟩
    (testRun 0 ++ step0Run 0 ++ List.replicate 2 (.run 0)) (fun x => 0 < x.2) (by decide +kernel)
  have halone : ∀ (x : Flags 1 × ℕ) (a : FlagAct 1), x.1.Alone a := by
    rintro x (c | _)
    · exact ⟨fun _ _ d hd => absurd (Subsingleton.elim d c) hd,
        fun _ _ _ d hd => absurd (Subsingleton.elim d c) hd⟩
    · trivial
  have h := hreach.mono fun x a _ => halone x a
  exact ⟨s, k, h, hk, one_summary_of_alone h⟩

/-- Two CPUs make the test of STEP 0 before either stores into `summary_printed`, and both print the
summary of the one test run. -/
theorem summary_printed_twice : ∃ x, (flagMachine 2).Reachable x ∧ x.2 = 2 :=
  Machine.reachable_of_exec (M := flagMachine 2) (s := (boot 2, 0)) ⟨boot_init 2, rfl⟩
    (testRun 0 ++ step0Run 0 ++ step0Run 1 ++ [.run 0, .run 0, .run 1, .run 1]) (fun x => x.2 = 2)
    (by decide +kernel)

end Xv6
