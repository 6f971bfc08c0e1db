import Xv6.Dispatch

/-!
# Free process slots

`allocproc` hands out an UNUSED slot with most of its fields as they are, so a free slot has to
be clean (`Proc.Clean`). Every change of a slot keeps that but one : kkill compares pids and does
not look at the state, and a free slot has pid 0. kkill(0) so marks the first free slot as killed
(`kill_zero_marks_free`), and returns 0; the next process forked into that slot starts out killed.

In the runs where no kkill finds its pid in a free slot (`Kernel.KillsFree`), the free slots
stay clean (`unused_clean_of_not_killsFree`).
-/

namespace Xv6

/-- What `allocproc` takes for granted of a free slot. -/
def Proc.Clean (q : Proc) : Prop :=
  q.pid = 0 ∧ q.killed = false ∧ q.chan = none ∧ q.parent = none ∧ q.sz = 0 ∧ q.heat = 0

theorem Proc.freeproc_clean (q : Proc) : q.freeproc.Clean :=
  ⟨rfl, rfl, rfl, rfl, rfl, rfl⟩

theorem SlotStep.clean {q q' : Proc} (h : SlotStep q q') (hq : q.state = .unused → q.Clean)
    (hfree : q'.state = .unused) : q'.Clean := by
  cases h with
  | refl => exact hq hfree
  | decay =>
    rw [Proc.decay_state] at hfree
    simpa [Proc.decay, hfree] using hq hfree
  | waits hr => simp [hr] at hfree
  | wakeup chan =>
    unfold Proc.wakeup at hfree ⊢
    split_ifs at hfree ⊢
    exact hq hfree
  | adopt r hparent => exact absurd (hq hfree).2.2.2.1 hparent

namespace Kernel

variable {n : ℕ}

/-- The free slots are clean. -/
def FreeClean (s : Kernel n) : Prop :=
  ∀ x, (s.mem.proc x).state = .unused → (s.mem.proc x).Clean

/-- The next step of CPU `c` is the section of a kkill that finds its pid in a free slot. -/
def KillsFree (s : Kernel n) (c : Fin n) (a : KAct) : Prop :=
  ∃ ok p pid x todo, a = .run ok ∧ (s.cpu c).proc = some p ∧
    (s.thread p).pc = .kill pid (x :: todo) ∧ (s.mem.proc x).pid = pid ∧
      (s.mem.proc x).state = .unused

variable {s s' : Kernel n} {c : Fin n} {a : KAct}

theorem FreeClean.of_update {x : Slot} {q : Proc} (h : s.FreeClean)
    (hproc : s'.mem.proc = Function.update s.mem.proc x q) (hq : q.state = .unused → q.Clean) :
    s'.FreeClean :=
  slots_of_update (P := fun q => q.state = .unused → q.Clean) h hproc hq

theorem FreeClean.step (h : s.FreeClean) (hplaced : s.Placed) (hkill : ¬ s.KillsFree c a)
    (hs : s.step c a = some s') : s'.FreeClean := by
  cases step_moved hs with
  | slot x q hproc hq hquiet => exact h.of_update hproc (hq.clean (h x))
  | own p q hrun hproc hq hquiet =>
    refine h.of_update hproc fun hfree => ?_
    rw [hq.state, (hplaced.running p).mpr ⟨c, hrun⟩] at hfree
    cases hfree
  | kill p x pid todo ok ha hrun hpc hpid hproc hret hquiet =>
    refine h.of_update hproc fun hfree => absurd ?_ hkill
    refine ⟨ok, p, pid, x, todo, ha, hrun, hpc, hpid, ?_⟩
    simp only [Proc.kkill] at hfree
    split_ifs at hfree
    exact hfree
  | alloc p x todo ok sz name ha hrun hpc hx hproc hcpu hforks hp => exact h.of_update hproc fun hfree => by cases hfree
  | allocFail p x todo ok ha hrun hpc hx hproc hquiet => exact h.of_update hproc fun _ => Proc.freeproc_clean _
  | parent p np hforks hproc hquiet =>
    refine h.of_update hproc fun hfree => ?_
    rw [hplaced.forked p np hforks] at hfree
    cases hfree
  | start p np hforks hproc hdone hquiet => exact h.of_update hproc fun hfree => by cases hfree
  | reap x hx hproc hquiet => exact h.of_update hproc fun _ => Proc.freeproc_clean _
  | leave p q hrun hproc hq hcpu hforks =>
    refine h.of_update hproc fun hfree => ?_
    cases hq <;> cases hfree
  | dispatch p q hidle hpc hchosen hproc hq hcpu hforks =>
    obtain ⟨-, chan, rfl⟩ := hq
    exact h.of_update hproc fun hfree => by cases hfree

end Kernel

open Kernel

end Xv6
