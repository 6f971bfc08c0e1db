import Mathlib.Algebra.BigOperators.Fin
import Mathlib.Algebra.Order.BigOperators.Group.List
import Mathlib.Data.Fin.Basic
import Mathlib.Data.List.Induction
import Mathlib.Data.List.Nodup
import Mathlib.Order.Bounds.Basic
import Mathlib.Order.MinMax
import Mathlib.Tactic.Ring
import Mathlib.Tactic.SplitIfs
import Xv6.Thermal

/-!
# The thermal metrics as a summary

The `tm` table is filled by `tm_record_schedule` and `tm_record_skip` and emptied by `tm_reset`. What it is for
is to summarise the calls since the last reset, and `Tm.Exact` says that it does : the first
`MAX_TRACKED_PIDS` different pids have a slot each, in the order in which they came, which counts their schedules and
skips and has the sum, the least and the greatest of their heats; calls for other pids are not
seen at all; and the counters of the temperature are over the schedules that have a slot.

`Tm.Exact` is kept by every call (`Tm.Exact.record`), hence by every sequence of them
(`metrics_exact`). The summary prints averages, with 0 for an average over nothing. For the heats of a pid
it prints 0 for the least and the greatest then, too; for the temperature it prints the values the
counters start with, 100 and 0.
-/

namespace Xv6

/-- A call that records something. -/
inductive TmCall
  /-- `tm_record_schedule(pid, heat)`, at that `cpu_temp`. -/
  | schedule (temp pid heat : Int)
  /-- `tm_record_skip(pid)` -/
  | skip (pid : Int)

inductive TmEvent
  | call (c : TmCall)
  /-- `tm_reset()` -/
  | reset

namespace TmCall

def pid : TmCall → Int
  | schedule _ pid _ => pid
  | skip pid => pid

/-- The values that the kernel calls the functions with. -/
def Valid : TmCall → Prop
  | schedule temp pid heat => 1 ≤ pid ∧ (0 ≤ heat ∧ heat ≤ 100) ∧ 20 ≤ temp ∧ temp ≤ 100
  | skip pid => 1 ≤ pid

theorem Valid.pid_ne_zero {c : TmCall} (h : c.Valid) : c.pid ≠ 0 := by
  cases c with
  | schedule temp pid heat =>
    have hpid : 1 ≤ pid := h.1
    exact fun h0 : pid = 0 => by omega
  | skip pid =>
    have hpid : 1 ≤ pid := h
    exact fun h0 : pid = 0 => by omega

/-- The heat that a call records for `pid`. -/
def heatOf (pid : Int) : TmCall → Option Int
  | schedule _ q heat => if q = pid then some heat else none
  | skip _ => none

/-- The temperature that a call records, if its pid is one of `ps`. -/
def tempIn (ps : List Int) : TmCall → Option Int
  | schedule temp q _ => if q ∈ ps then some temp else none
  | skip _ => none

/-- The call is a skip of `pid`. -/
def isSkip (pid : Int) : TmCall → Bool
  | schedule _ _ _ => false
  | skip q => q == pid

end TmCall

/-- The heats recorded for a pid. -/
def heatsOf (cs : List TmCall) (pid : Int) : List Int :=
  cs.filterMap (TmCall.heatOf pid)

/-- The temperatures recorded with the pids of `ps`. -/
def tempsOf (cs : List TmCall) (ps : List Int) : List Int :=
  cs.filterMap (TmCall.tempIn ps)

/-- The first `MAX_TRACKED_PIDS` different pids. -/
def tracked (cs : List TmCall) : List Int :=
  (cs.map TmCall.pid).eraseDups.take MAX_TRACKED_PIDS

/-- The calls since the last reset. -/
def sinceReset (es : List TmEvent) : List TmCall :=
  es.foldl (fun cs e => match e with
    | .call c => cs ++ [c]
    | .reset => []) []

namespace Tm

def record (tm : Tm) : TmCall → Tm
  | .schedule temp pid heat => tm.recordSchedule temp pid heat
  | .skip pid => tm.recordSkip pid

def apply (tm : Tm) : TmEvent → Tm
  | .call c => tm.record c
  | .reset => Tm.reset

/-- The table after the events, from boot. -/
def run (es : List TmEvent) : Tm :=
  es.foldl apply boot

/-! ## What the summary prints -/

/-- The average, the least and the greatest temperature. -/
def printedTemp (tm : Tm) : Int × Int × Int :=
  (if tm.tempCount > 0 then tm.tempSum.tdiv tm.tempCount else 0, tm.tempMin, tm.tempMax)

end Tm

/-- The average, the least and the greatest heat in the line of a slot. -/
def ThermalMetrics.printedHeat (m : ThermalMetrics) : Int × Int × Int :=
  (if m.schedCount > 0 then m.heatSum.tdiv m.schedCount else 0,
    if m.heatMin ≤ MAX_HEAT then m.heatMin else 0, if m.heatMax ≥ 0 then m.heatMax else 0)

/-! ## Accumulators -/

theorem foldl_concat {α β : Type*} (f : β → α → β) (b : β) (l : List α) (x : α) :
    (l ++ [x]).foldl f b = f (l.foldl f b) x := by
  rw [List.foldl_append]
  rfl

/-- An accumulator of the least element that starts above all of them. -/
theorem isLeast_foldl_min {α : Type*} [LinearOrder α] {top : α} {l : List α} (hne : l ≠ [])
    (h : ∀ x ∈ l, x ≤ top) : IsLeast { x | x ∈ l } (l.foldl min top) := by
  induction l using List.reverseRecOn with
  | nil => exact absurd rfl hne
  | append_singleton l x ih =>
    rw [foldl_concat]
    by_cases hl : l = []
    · subst hl
      rw [List.foldl_nil, min_eq_right (h x (by simp))]
      exact ⟨by simp, fun y hy => by simp_all⟩
    · obtain ⟨hmem, hle⟩ := ih hl fun y hy => h y (List.mem_append_left _ hy)
      refine ⟨?_, fun y hy => ?_⟩
      · obtain hmin | hmin := min_choice (l.foldl min top) x
        · rw [hmin]
          exact List.mem_append_left _ hmem
        · rw [hmin]
          exact List.mem_append_right _ (List.mem_singleton_self x)
      · obtain hy | hy := List.mem_append.mp hy
        · exact (min_le_left _ _).trans (hle hy)
        · rw [List.mem_singleton.mp hy]
          exact min_le_right _ _

theorem isGreatest_foldl_max {α : Type*} [LinearOrder α] {bot : α} {l : List α} (hne : l ≠ [])
    (h : ∀ x ∈ l, bot ≤ x) : IsGreatest { x | x ∈ l } (l.foldl max bot) :=
  isLeast_foldl_min (α := αᵒᵈ) hne h

theorem ite_lt_eq_min (a b : Int) : (if a < b then a else b) = min b a := by
  split_ifs <;> omega

theorem ite_gt_eq_max (a b : Int) : (if a > b then a else b) = max b a := by
  split_ifs <;> omega

/-! ## The pids with a slot -/

section Tracked

variable {cs : List TmCall} {c : TmCall} {p q : Int}

theorem eraseDups_concat (l : List Int) (a : Int) :
    (l ++ [a]).eraseDups = if a ∈ l then l.eraseDups else l.eraseDups ++ [a] := by
  rw [List.eraseDups_append]
  split_ifs with ha
  · simp [List.removeAll, ha]
  · simp [List.removeAll, ha, List.eraseDups_cons]

theorem nodup_eraseDups (l : List Int) : l.eraseDups.Nodup := by
  induction l using List.reverseRecOn with
  | nil => simp
  | append_singleton l a ih =>
    rw [eraseDups_concat]
    split_ifs with ha
    · exact ih
    · exact List.nodup_append.mpr ⟨ih, List.nodup_singleton a, fun x hx y hy => by
        rw [List.mem_singleton.mp hy]
        rintro rfl
        exact ha (List.mem_eraseDups.mp hx)⟩

theorem tracked_nodup (cs : List TmCall) : (tracked cs).Nodup :=
  (nodup_eraseDups _).sublist (List.take_sublist _ _)

theorem length_tracked_le (cs : List TmCall) : (tracked cs).length ≤ MAX_TRACKED_PIDS :=
  List.length_take_le _ _

theorem mem_of_tracked (h : p ∈ tracked cs) : ∃ c ∈ cs, c.pid = p :=
  List.mem_map.mp (List.mem_eraseDups.mp (List.mem_of_mem_take h))

/-- A pid that has come but has no slot came when all were taken. -/
theorem full_of_not_tracked (hc : c ∈ cs) (h : c.pid ∉ tracked cs) : (tracked cs).length = MAX_TRACKED_PIDS := by
  have hmem : c.pid ∈ (cs.map TmCall.pid).eraseDups := List.mem_eraseDups.mpr (List.mem_map_of_mem hc)
  by_contra hne
  have hlt : (cs.map TmCall.pid).eraseDups.length < MAX_TRACKED_PIDS := by
    have := length_tracked_le cs
    simp only [tracked, List.length_take] at hne this
    omega
  rw [tracked, List.take_of_length_le hlt.le] at h
  exact h hmem

theorem tracked_concat (cs : List TmCall) (c : TmCall) : tracked (cs ++ [c]) =
    if c.pid ∈ tracked cs ∨ (tracked cs).length = MAX_TRACKED_PIDS then tracked cs
    else tracked cs ++ [c.pid] := by
  have hconcat : tracked (cs ++ [c]) = (if c.pid ∈ cs.map TmCall.pid then (cs.map TmCall.pid).eraseDups
      else (cs.map TmCall.pid).eraseDups ++ [c.pid]).take MAX_TRACKED_PIDS := by
    rw [tracked, List.map_append, List.map_singleton, eraseDups_concat]
  by_cases hpid : c.pid ∈ cs.map TmCall.pid
  · rw [hconcat, if_pos hpid, if_pos]
    · rfl
    · by_contra hnot
      rw [not_or] at hnot
      obtain ⟨d, hd, hdc⟩ := List.mem_map.mp hpid
      exact hnot.2 (full_of_not_tracked hd (by rw [hdc]; exact hnot.1))
  · have hnew : c.pid ∉ tracked cs := fun h => by
      obtain ⟨d, hd, hdc⟩ := mem_of_tracked h
      exact hpid (List.mem_map.mpr ⟨d, hd, hdc⟩)
    rw [hconcat, if_neg hpid]
    split_ifs with hfull
    · have hlen := hfull.resolve_left hnew
      rw [tracked, List.length_take, min_eq_left_iff] at hlen
      rw [List.take_append_of_le_length hlen]
      rfl
    · have hlt : (cs.map TmCall.pid).eraseDups.length < MAX_TRACKED_PIDS := by
        rw [not_or] at hfull
        have := hfull.2
        simp only [tracked, List.length_take] at this
        omega
      rw [List.take_of_length_le (by rw [List.length_append]; exact hlt), tracked,
        List.take_of_length_le hlt.le]

/-- A call changes nothing about which earlier calls have a slot. -/
theorem mem_tracked_concat (hc : c ∈ cs) {d : TmCall} : c.pid ∈ tracked (cs ++ [d]) ↔ c.pid ∈ tracked cs := by
  rw [tracked_concat]
  split_ifs with h
  · rfl
  · rw [List.mem_append, List.mem_singleton, or_iff_left_iff_imp]
    intro hpid
    rw [not_or, ← hpid] at h
    exact absurd (full_of_not_tracked hc h.1) h.2

end Tracked

/-! ## The slots -/

theorem find?_finRange {n : ℕ} {P : Fin n → Bool} {i : Fin n} (hi : P i = true) (h : ∀ j, j < i → P j = false) :
    (List.finRange n).find? P = some i := by
  refine List.find?_eq_some_iff_getElem.mpr ⟨hi, i, by simp, by simp, fun j hj => ?_⟩
  simpa using h ⟨j, hj.trans i.isLt⟩ hj

/-- What a slot is to hold for a pid. -/
def summaryOf (cs : List TmCall) (pid : Int) : ThermalMetrics where
  pid := pid
  schedCount := (heatsOf cs pid).length
  skipCount := cs.countP (TmCall.isSkip pid)
  heatSum := (heatsOf cs pid).sum
  heatMin := (heatsOf cs pid).foldl min (MAX_HEAT + 1)
  heatMax := (heatsOf cs pid).foldl max (-1)

section Summary

variable {cs : List TmCall} {c : TmCall} {p : Int} {ps : List Int}

theorem heatOf_of_ne (h : c.pid ≠ p) : c.heatOf p = none := by
  cases c with
  | schedule temp q heat => exact if_neg h
  | skip q => rfl

theorem isSkip_of_ne (h : c.pid ≠ p) : c.isSkip p = false := by
  cases c with
  | schedule temp q heat => rfl
  | skip q => exact decide_eq_false h

theorem heatsOf_concat (cs : List TmCall) (c : TmCall) (p : Int) :
    heatsOf (cs ++ [c]) p = heatsOf cs p ++ (c.heatOf p).toList := by
  rw [heatsOf, List.filterMap_append, heatsOf]
  congr 1

/-- Calls for other pids do not count. -/
theorem summaryOf_concat_of_ne (h : c.pid ≠ p) : summaryOf (cs ++ [c]) p = summaryOf cs p := by
  have hheats : heatsOf (cs ++ [c]) p = heatsOf cs p := by
    rw [heatsOf_concat, heatOf_of_ne h]
    exact List.append_nil _
  have hskips : (cs ++ [c]).countP (TmCall.isSkip p) = cs.countP (TmCall.isSkip p) := by
    rw [List.countP_append, List.countP_singleton, isSkip_of_ne h]
    rfl
  rw [summaryOf, summaryOf, hheats, hskips]

theorem summaryOf_new (h : ∀ d ∈ cs, d.pid ≠ p) : summaryOf cs p = ⟨p, 0, 0, 0, MAX_HEAT + 1, -1⟩ := by
  have hheats : heatsOf cs p = [] := List.filterMap_eq_nil_iff.mpr fun d hd => heatOf_of_ne (h d hd)
  have hskips : cs.countP (TmCall.isSkip p) = 0 :=
    List.countP_eq_zero.mpr fun d hd => by simp [isSkip_of_ne (h d hd)]
  rw [summaryOf, hheats, hskips]
  rfl

theorem summaryOf_schedule (temp p heat : Int) : summaryOf (cs ++ [.schedule temp p heat]) p =
    { summaryOf cs p with
      schedCount := (summaryOf cs p).schedCount + 1
      heatSum := (summaryOf cs p).heatSum + heat
      heatMin := min (summaryOf cs p).heatMin heat
      heatMax := max (summaryOf cs p).heatMax heat } := by
  have hheats : heatsOf (cs ++ [.schedule temp p heat]) p = heatsOf cs p ++ [heat] := by
    rw [heatsOf_concat]
    simp [TmCall.heatOf]
  simp [summaryOf, hheats, TmCall.isSkip, List.countP_append]

theorem summaryOf_skip (p : Int) : summaryOf (cs ++ [.skip p]) p =
    { summaryOf cs p with skipCount := (summaryOf cs p).skipCount + 1 } := by
  have hheats : heatsOf (cs ++ [.skip p]) p = heatsOf cs p := by
    rw [heatsOf_concat]
    simp [TmCall.heatOf]
  simp [summaryOf, hheats, TmCall.isSkip, List.countP_append]

/-- The temperatures recorded so far stay the same. -/
theorem tempsOf_concat (cs : List TmCall) (c : TmCall) : tempsOf (cs ++ [c]) (tracked (cs ++ [c])) =
    tempsOf cs (tracked cs) ++ (c.tempIn (tracked (cs ++ [c]))).toList := by
  have hold : tempsOf cs (tracked (cs ++ [c])) = tempsOf cs (tracked cs) := by
    refine List.filterMap_congr fun d hd => ?_
    have hiff := mem_tracked_concat hd (d := c)
    cases d with
    | schedule temp q heat =>
      simp only [TmCall.tempIn]
      exact if_congr hiff rfl rfl
    | skip q => rfl
  rw [← hold, tempsOf, List.filterMap_append, tempsOf]
  congr 1

end Summary

namespace Tm

variable {tm tm' : Tm} {cs : List TmCall} {c : TmCall} {p q : Int} {i j : Fin MAX_TRACKED_PIDS}

/-- The slots of the table are for the pids `ps`, and hold the summaries of `cs`. -/
structure Slots (tm : Tm) (ps : List Int) (cs : List TmCall) : Prop where
  nodup : ps.Nodup
  length : ps.length ≤ MAX_TRACKED_PIDS
  pos : ∀ p ∈ ps, p ≠ 0
  slot : ∀ (i : Fin MAX_TRACKED_PIDS) (p : Int), ps[(i : ℕ)]? = some p → tm.slot i = summaryOf cs p
  free : ∀ i : Fin MAX_TRACKED_PIDS, ps[(i : ℕ)]? = none →
    (tm.slot i).pid = 0 ∧ (tm.slot i).schedCount = 0 ∧ (tm.slot i).skipCount = 0 ∧ (tm.slot i).heatSum = 0

theorem Slots.pid_eq {ps : List Int} (h : tm.Slots ps cs) (i : Fin MAX_TRACKED_PIDS) :
    (tm.slot i).pid = ps[(i : ℕ)]?.getD 0 := by
  cases hi : ps[(i : ℕ)]? with
  | none => exact (h.free i hi).1
  | some p =>
    rw [h.slot i p hi]
    rfl

theorem Slots.find_mem {ps : List Int} (h : tm.Slots ps cs) (hi : ps[(i : ℕ)]? = some p) :
    tm.find p = (tm, some i) := by
  have hp : p ≠ 0 := h.pos p (List.mem_of_getElem? hi)
  have hfind : (List.finRange MAX_TRACKED_PIDS).find? (fun i => (tm.slot i).pid == p) = some i := by
    refine find?_finRange (by simp [h.pid_eq, hi]) fun j hji => ?_
    rw [h.pid_eq]
    cases hj : ps[(j : ℕ)]? with
    | none => simpa using Ne.symm hp
    | some q =>
      simp only [Option.getD_some, beq_eq_false_iff_ne]
      rintro rfl
      have hlt := (List.getElem?_eq_some_iff.mp hi).1
      have heq := (List.getElem?_inj hlt h.nodup).mp (hi.trans hj.symm)
      omega
  unfold find
  rw [hfind]

/-- The table after `tm_find` has taken slot `i`. -/
def take (tm : Tm) (i : Fin MAX_TRACKED_PIDS) (p : Int) : Tm :=
  let m := { tm.slot i with pid := p, heatMin := MAX_HEAT + 1, heatMax := -1 }
  { tm with slot := Function.update tm.slot i m }

theorem Slots.find_new {ps : List Int} (h : tm.Slots ps cs) (hp : p ≠ 0) (hps : p ∉ ps) (hi : (i : ℕ) = ps.length) :
    tm.find p = (tm.take i p, some i) := by
  have hnone : (List.finRange MAX_TRACKED_PIDS).find? (fun i => (tm.slot i).pid == p) = none := by
    refine List.find?_eq_none.mpr fun j _ => ?_
    rw [h.pid_eq, beq_iff_eq]
    cases hj : ps[(j : ℕ)]? with
    | none => exact Ne.symm hp
    | some q =>
      rintro rfl
      exact hps (List.mem_of_getElem? hj)
  have hfind : (List.finRange MAX_TRACKED_PIDS).find? (fun i => (tm.slot i).pid == 0) = some i := by
    refine find?_finRange ?_ fun j hji => ?_
    · rw [h.pid_eq, hi, List.getElem?_eq_none (le_refl _)]
      rfl
    · have hlt : (j : ℕ) < ps.length := by
        rw [← hi]
        exact hji
      rw [h.pid_eq, List.getElem?_eq_getElem hlt, Option.getD_some, beq_eq_false_iff_ne]
      exact h.pos _ (List.getElem_mem hlt)
  unfold find
  rw [hnone, hfind]
  rfl

theorem Slots.find_full {ps : List Int} (h : tm.Slots ps cs) (hp : p ≠ 0) (hps : p ∉ ps)
    (hfull : ps.length = MAX_TRACKED_PIDS) : tm.find p = (tm, none) := by
  have hget : ∀ j : Fin MAX_TRACKED_PIDS, ∃ q ∈ ps, (tm.slot j).pid = q := fun j => by
    have hlt : (j : ℕ) < ps.length := by
      rw [hfull]
      exact j.isLt
    exact ⟨ps[(j : ℕ)], List.getElem_mem hlt, by rw [h.pid_eq, List.getElem?_eq_getElem hlt]; rfl⟩
  have hnone : (List.finRange MAX_TRACKED_PIDS).find? (fun i => (tm.slot i).pid == p) = none := by
    refine List.find?_eq_none.mpr fun j _ => ?_
    obtain ⟨q, hq, hpid⟩ := hget j
    rw [hpid, beq_iff_eq]
    rintro rfl
    exact hps hq
  have hnone' : (List.finRange MAX_TRACKED_PIDS).find? (fun i => (tm.slot i).pid == 0) = none := by
    refine List.find?_eq_none.mpr fun j _ => ?_
    obtain ⟨q, hq, hpid⟩ := hget j
    rw [hpid, beq_iff_eq]
    exact h.pos q hq
  unfold find
  rw [hnone, hnone']

theorem take_schedCount (tm : Tm) (i : Fin MAX_TRACKED_PIDS) (p : Int) (j : Fin MAX_TRACKED_PIDS) :
    ((tm.take i p).slot j).schedCount = (tm.slot j).schedCount := by
  by_cases hji : j = i
  · rw [hji]
    simp [take]
  · simp [take, hji]

theorem sum_update (slot : Fin MAX_TRACKED_PIDS → ThermalMetrics) (i : Fin MAX_TRACKED_PIDS) (x : ThermalMetrics) :
    ∑ j, (Function.update slot i x j).schedCount =
      ∑ j, (slot j).schedCount - (slot i).schedCount + x.schedCount := by
  rw [← Finset.add_sum_erase _ _ (Finset.mem_univ i), ← Finset.add_sum_erase _ (fun j => (slot j).schedCount)
    (Finset.mem_univ i), Function.update_self]
  have hrest : ∑ j ∈ Finset.univ.erase i, (Function.update slot i x j).schedCount =
      ∑ j ∈ Finset.univ.erase i, (slot j).schedCount :=
    Finset.sum_congr rfl fun j hj => by rw [Function.update_of_ne (Finset.ne_of_mem_erase hj)]
  rw [hrest]
  ring

/-- The table is the summary of the calls `cs`. -/
structure Exact (tm : Tm) (cs : List TmCall) : Prop where
  slots : tm.Slots (tracked cs) cs
  tempSum : tm.tempSum = (tempsOf cs (tracked cs)).sum
  tempCount : tm.tempCount = (tempsOf cs (tracked cs)).length
  counted : tm.tempCount = ∑ i, (tm.slot i).schedCount
  tempMin : tm.tempMin = (tempsOf cs (tracked cs)).foldl min 100
  tempMax : tm.tempMax = (tempsOf cs (tracked cs)).foldl max 0

/-- The slot that `tm_find` gives, and the table with the pids of the calls so far and this one. -/
theorem Slots.find (h : tm.Slots (tracked cs) cs) (hp : c.pid ≠ 0) :
    (c.pid ∉ tracked (cs ++ [c]) ∧ tracked (cs ++ [c]) = tracked cs ∧ tm.find c.pid = (tm, none)) ∨
    ∃ i slot, tm.find c.pid = ({ tm with slot := slot }, some i) ∧
      (tracked (cs ++ [c]))[(i : ℕ)]? = some c.pid ∧
      ({ tm with slot := slot } : Tm).Slots (tracked (cs ++ [c])) cs ∧
      ∀ j, (slot j).schedCount = (tm.slot j).schedCount := by
  have hconcat := tracked_concat cs c
  by_cases hmem : c.pid ∈ tracked cs
  · right
    rw [if_pos (Or.inl hmem)] at hconcat
    obtain ⟨i, hi⟩ := List.mem_iff_getElem?.mp hmem
    have hlt : i < MAX_TRACKED_PIDS := (List.getElem?_eq_some_iff.mp hi).1.trans_le h.length
    rw [hconcat]
    exact ⟨⟨i, hlt⟩, tm.slot, h.find_mem hi, hi, h, fun _ => rfl⟩
  · by_cases hfull : (tracked cs).length = MAX_TRACKED_PIDS
    · rw [if_pos (Or.inr hfull)] at hconcat
      exact Or.inl ⟨by rwa [hconcat], hconcat, h.find_full hp hmem hfull⟩
    · right
      rw [if_neg (by simp [hmem, hfull])] at hconcat
      have hlt : (tracked cs).length < MAX_TRACKED_PIDS := lt_of_le_of_ne h.length hfull
      have hnew : ∀ d ∈ cs, d.pid ≠ c.pid := fun d hd hdc =>
        hfull (full_of_not_tracked hd (by rwa [hdc]))
      set i : Fin MAX_TRACKED_PIDS := ⟨(tracked cs).length, hlt⟩ with hi
      have hget : (tracked (cs ++ [c]))[(i : ℕ)]? = some c.pid := by
        rw [hconcat]
        exact List.getElem?_concat_length
      have hfree := h.free i (List.getElem?_eq_none (le_refl _))
      refine ⟨i, (tm.take i c.pid).slot, h.find_new hp hmem rfl, hget, ?_, tm.take_schedCount i c.pid⟩
      refine ⟨tracked_nodup _, length_tracked_le _, ?_, fun j q hj => ?_, fun j hj => ?_⟩
      · rw [hconcat]
        intro q hq
        obtain hq | hq := List.mem_append.mp hq
        · exact h.pos q hq
        · rw [List.mem_singleton.mp hq]
          exact hp
      · by_cases hji : j = i
        · rw [hji] at hj ⊢
          obtain rfl := Option.some.inj (hget.symm.trans hj)
          rw [summaryOf_new hnew]
          simp [take, hfree.2]
        · have hjlt : (j : ℕ) < (tracked cs).length := by
            have hlen := (List.getElem?_eq_some_iff.mp hj).1
            have hne : (j : ℕ) ≠ (tracked cs).length := fun heq => hji (Fin.ext heq)
            rw [hconcat, List.length_append, List.length_singleton] at hlen
            omega
          rw [hconcat, List.getElem?_append_left hjlt] at hj
          simp only [take, Function.update_of_ne hji]
          exact h.slot j q hj
      · have hlen := List.getElem?_eq_none_iff.mp hj
        rw [hconcat, List.length_append, List.length_singleton] at hlen
        have hji : j ≠ i := by
          intro heq
          have hval : (j : ℕ) = (tracked cs).length := congrArg Fin.val heq
          omega
        simp only [take, Function.update_of_ne hji]
        exact h.free j (List.getElem?_eq_none (by omega))

/-- The slot of a pid is updated. -/
theorem Slots.update {slot : Fin MAX_TRACKED_PIDS → ThermalMetrics} {x : ThermalMetrics} {ps : List Int}
    (h : ({ tm with slot := slot } : Tm).Slots ps cs) (hi : ps[(i : ℕ)]? = some c.pid)
    (hx : x = summaryOf (cs ++ [c]) c.pid) (htm : tm'.slot = Function.update slot i x) :
    tm'.Slots ps (cs ++ [c]) := by
  refine ⟨h.nodup, h.length, h.pos, fun j q hj => ?_, fun j hj => ?_⟩
  · rw [htm]
    by_cases hji : j = i
    · rw [hji] at hj ⊢
      obtain rfl := Option.some.inj (hi.symm.trans hj)
      rw [Function.update_self, hx]
    · have hne : c.pid ≠ q := by
        rintro rfl
        have hlt := (List.getElem?_eq_some_iff.mp hi).1
        exact hji (Fin.ext ((List.getElem?_inj hlt h.nodup).mp (hi.trans hj.symm)).symm)
      rw [Function.update_of_ne hji, summaryOf_concat_of_ne hne]
      exact h.slot j q hj
  · have hji : j ≠ i := by
      rintro rfl
      rw [hi] at hj
      cases hj
    rw [htm, Function.update_of_ne hji]
    exact h.free j hj

/-- A call for a pid without a slot. -/
theorem Exact.unseen (h : tm.Exact cs) (hnot : c.pid ∉ tracked (cs ++ [c]))
    (hsame : tracked (cs ++ [c]) = tracked cs) : tm.Exact (cs ++ [c]) := by
  have htemps : tempsOf (cs ++ [c]) (tracked (cs ++ [c])) = tempsOf cs (tracked cs) := by
    rw [tempsOf_concat]
    cases c with
    | schedule temp q heat =>
      rw [TmCall.tempIn, if_neg (show q ∉ _ from hnot)]
      exact List.append_nil _
    | skip q => exact List.append_nil _
  refine ⟨?_, by rw [htemps]; exact h.tempSum, by rw [htemps]; exact h.tempCount, h.counted,
    by rw [htemps]; exact h.tempMin, by rw [htemps]; exact h.tempMax⟩
  rw [hsame] at hnot ⊢
  refine ⟨h.slots.nodup, h.slots.length, h.slots.pos, fun j q hj => ?_, h.slots.free⟩
  rw [summaryOf_concat_of_ne]
  · exact h.slots.slot j q hj
  · rintro rfl
    exact hnot (List.mem_of_getElem? hj)

theorem record_of_full (hfind : tm.find c.pid = (tm, none)) : tm.record c = tm := by
  cases c with
  | schedule temp q heat => simp only [Tm.record, recordSchedule, show tm.find q = _ from hfind]
  | skip q => simp only [Tm.record, recordSkip, show tm.find q = _ from hfind]

/-- Every call keeps the table exact. -/
theorem Exact.record (h : tm.Exact cs) (hp : c.pid ≠ 0) : (tm.record c).Exact (cs ++ [c]) := by
  obtain ⟨hnot, hsame, hfind⟩ | ⟨i, slot, hfind, hi, hslots, hcounts⟩ := h.slots.find hp
  · rw [record_of_full hfind]
    exact h.unseen hnot hsame
  · have hmem : c.pid ∈ tracked (cs ++ [c]) := List.mem_of_getElem? hi
    have hslot : slot i = summaryOf cs c.pid := hslots.slot i c.pid hi
    cases c with
    | schedule temp q heat =>
      have htemps := tempsOf_concat cs (.schedule temp q heat)
      rw [TmCall.tempIn, if_pos (show q ∈ _ from hmem), Option.toList_some] at htemps
      have hfind : tm.find q = _ := hfind
      have hslot : slot i = summaryOf cs q := hslot
      simp only [Tm.record, recordSchedule, hfind]
      refine ⟨hslots.update hi ?_ rfl, ?_, ?_, ?_, ?_, ?_⟩
      · show _ = summaryOf (cs ++ [.schedule temp q heat]) q
        rw [summaryOf_schedule, hslot, ite_lt_eq_min, ite_gt_eq_max]
      · rw [htemps, List.sum_append, List.sum_singleton, h.tempSum]
      · rw [htemps, List.length_append, List.length_singleton, h.tempCount]
        rfl
      · rw [sum_update, h.counted, Finset.sum_congr rfl fun j _ => (hcounts j).symm]
        ring
      · rw [htemps, foldl_concat, ← h.tempMin]
        exact ite_lt_eq_min temp tm.tempMin
      · rw [htemps, foldl_concat, ← h.tempMax]
        exact ite_gt_eq_max temp tm.tempMax
    | skip q =>
      have htemps := tempsOf_concat cs (.skip q)
      rw [TmCall.tempIn, Option.toList_none, List.append_nil] at htemps
      have hfind : tm.find q = _ := hfind
      have hslot : slot i = summaryOf cs q := hslot
      simp only [Tm.record, recordSkip, hfind]
      refine ⟨hslots.update hi ?_ rfl, by rw [htemps]; exact h.tempSum, by rw [htemps]; exact h.tempCount,
        ?_, by rw [htemps]; exact h.tempMin, by rw [htemps]; exact h.tempMax⟩
      · show _ = summaryOf (cs ++ [.skip q]) q
        rw [summaryOf_skip, hslot]
      · rw [sum_update, h.counted, Finset.sum_congr rfl fun j _ => (hcounts j).symm]
        ring

theorem exact_nil {tm : Tm} (hslot : ∀ i, (tm.slot i).pid = 0 ∧ (tm.slot i).schedCount = 0 ∧
    (tm.slot i).skipCount = 0 ∧ (tm.slot i).heatSum = 0) (hsum : tm.tempSum = 0) (hcount : tm.tempCount = 0)
    (hmin : tm.tempMin = 100) (hmax : tm.tempMax = 0) : tm.Exact [] := by
  refine ⟨⟨List.nodup_nil, Nat.zero_le _, fun _ h => absurd h List.not_mem_nil, fun i p hi => ?_, fun i _ => hslot i⟩,
    hsum, hcount, ?_, hmin, hmax⟩
  · cases hi
  · rw [hcount, Finset.sum_eq_zero fun i _ => (hslot i).2.1]

/-- After any events the table summarises the calls since the last reset. -/
theorem exact_run (es : List TmEvent) (h : ∀ c, .call c ∈ es → c.Valid) : (run es).Exact (sinceReset es) := by
  induction es using List.reverseRecOn with
  | nil => exact exact_nil (fun _ => ⟨rfl, rfl, rfl, rfl⟩) rfl rfl rfl rfl
  | append_singleton es e ih =>
    rw [run, sinceReset, foldl_concat, foldl_concat]
    cases e with
    | call c =>
      have hp : c.pid ≠ 0 := (h c (by simp)).pid_ne_zero
      exact (ih fun d hd => h d (List.mem_append_left _ hd)).record hp
    | reset => exact exact_nil (fun _ => ⟨rfl, rfl, rfl, rfl⟩) rfl rfl rfl rfl

end Tm

/-! ## What the summary says -/

/-- Average, least and greatest are in order. -/
def Ordered (x : Int × Int × Int) : Prop :=
  x.2.1 ≤ x.1 ∧ x.1 ≤ x.2.2

instance (x : Int × Int × Int) : Decidable (Ordered x) :=
  inferInstanceAs (Decidable (_ ∧ _))

/-- The value of a C `int`. -/
def InInt (x : Int) : Prop :=
  -2 ^ 31 ≤ x ∧ x < 2 ^ 31

/-- A slot holds the exact numbers of the schedules and skips of its pid, and the sum, the least and the
greatest of its heats. -/
structure ThermalMetrics.Holds (m : ThermalMetrics) (cs : List TmCall) : Prop where
  schedCount : m.schedCount = (heatsOf cs m.pid).length
  skipCount : m.skipCount = cs.countP (TmCall.isSkip m.pid)
  heatSum : m.heatSum = (heatsOf cs m.pid).sum
  heats : heatsOf cs m.pid ≠ [] →
    IsLeast { x | x ∈ heatsOf cs m.pid } m.heatMin ∧ IsGreatest { x | x ∈ heatsOf cs m.pid } m.heatMax
  inInt : InInt m.schedCount ∧ InInt m.skipCount ∧ InInt m.heatSum

/-- The table holds the exact numbers of every tracked pid, and of the temperatures at their schedules. -/
structure Tm.Holds (tm : Tm) (cs : List TmCall) : Prop where
  one : ∀ p ∈ tracked cs, ∃! i, (tm.slot i).pid = p
  only : ∀ i, (tm.slot i).pid ≠ 0 → (tm.slot i).pid ∈ tracked cs
  slot : ∀ i, (tm.slot i).pid ≠ 0 → (tm.slot i).Holds cs
  others : ∀ c : TmCall, c.pid ≠ 0 → c.pid ∉ tracked (cs ++ [c]) → tm.record c = tm
  tempCount : tm.tempCount = (tempsOf cs (tracked cs)).length
  counted : tm.tempCount = ∑ i, (tm.slot i).schedCount
  tempSum : tm.tempSum = (tempsOf cs (tracked cs)).sum
  temps : tempsOf cs (tracked cs) ≠ [] →
    IsLeast { x | x ∈ tempsOf cs (tracked cs) } tm.tempMin ∧
      IsGreatest { x | x ∈ tempsOf cs (tracked cs) } tm.tempMax
  inInt : InInt tm.tempCount ∧ InInt tm.tempSum

/-- Every average that the summary prints is between the least and the greatest that it prints. -/
def Tm.AveragesOrdered (tm : Tm) : Prop :=
  Ordered tm.printedTemp ∧ ∀ i, (tm.slot i).pid ≠ 0 → Ordered (tm.slot i).printedHeat

section Averages

variable {cs : List TmCall} {c : TmCall} {p : Int} {ps : List Int} {l : List Int}

theorem sum_le_of_le {n : ℕ} (hx : ∀ x ∈ l, 0 ≤ x ∧ x ≤ 100) (hn : l.length ≤ n) :
    0 ≤ l.sum ∧ l.sum ≤ n * 100 := by
  have hle := List.sum_le_card_nsmul l 100 fun x hxl => (hx x hxl).2
  have hn' : (l.length : Int) ≤ n := Int.ofNat_le.mpr hn
  rw [nsmul_eq_mul] at hle
  refine ⟨List.sum_nonneg fun x hxl => (hx x hxl).1, hle.trans ?_⟩
  omega

/-- An average is between bounds of what it is the average of. -/
theorem average_between {lo hi : Int} (hne : l ≠ []) (h0 : ∀ x ∈ l, 0 ≤ x) (hlo : ∀ x ∈ l, lo ≤ x)
    (hhi : ∀ x ∈ l, x ≤ hi) : lo ≤ l.sum.tdiv l.length ∧ l.sum.tdiv l.length ≤ hi := by
  have hpos : (0 : Int) < l.length := Int.ofNat_lt.mpr (List.length_pos_iff.mpr hne)
  have hlow := List.card_nsmul_le_sum l lo hlo
  have hhigh := List.sum_le_card_nsmul l hi hhi
  rw [nsmul_eq_mul] at hlow hhigh
  rw [Int.tdiv_eq_ediv_of_nonneg (List.sum_nonneg h0)]
  constructor
  · rw [Int.le_ediv_iff_mul_le hpos, Int.mul_comm]
    exact hlow
  · exact Int.ediv_le_of_le_mul hpos (by rw [Int.mul_comm]; exact hhigh)

theorem heat_range (hvalid : ∀ c ∈ cs, c.Valid) : ∀ x ∈ heatsOf cs p, 0 ≤ x ∧ x ≤ 100 := by
  intro x hx
  obtain ⟨c, hc, hheat⟩ := List.mem_filterMap.mp hx
  cases c with
  | schedule temp q heat =>
    obtain ⟨-, ⟨⟩⟩ := Option.ite_none_right_eq_some.mp hheat
    exact (hvalid _ hc).2.1
  | skip q => cases hheat

theorem temp_range (hvalid : ∀ c ∈ cs, c.Valid) (ps : List Int) : ∀ x ∈ tempsOf cs ps, 20 ≤ x ∧ x ≤ 100 := by
  intro x hx
  obtain ⟨c, hc, htemp⟩ := List.mem_filterMap.mp hx
  cases c with
  | schedule temp q heat =>
    obtain ⟨-, ⟨⟩⟩ := Option.ite_none_right_eq_some.mp htemp
    exact (hvalid _ hc).2.2
  | skip q => cases htemp

theorem inInt_of_le {n : ℕ} {x : Int} (hn : n * 100 < 2 ^ 31) (h : 0 ≤ x ∧ x ≤ n * 100) : InInt x := by
  have hlt : (n * 100 : Int) < 2 ^ 31 := by exact_mod_cast hn
  exact ⟨by omega, by omega⟩

theorem inInt_length {n : ℕ} {k : ℕ} (hn : n * 100 < 2 ^ 31) (h : k ≤ n) : InInt k :=
  inInt_of_le hn ⟨Int.natCast_nonneg k, by omega⟩

/-- What a slot holds is exact, and in range. -/
theorem holds_summaryOf (hvalid : ∀ c ∈ cs, c.Valid) (hlen : cs.length * 100 < 2 ^ 31) :
    (summaryOf cs p).Holds cs := by
  have hrange := heat_range (p := p) hvalid
  have hheats : (heatsOf cs p).length ≤ cs.length := List.length_filterMap_le _ _
  refine ⟨rfl, rfl, rfl, fun hne => ⟨isLeast_foldl_min hne fun x hx => ?_, isGreatest_foldl_max hne fun x hx => ?_⟩,
    inInt_length hlen hheats, inInt_length hlen List.countP_le_length, inInt_of_le hlen (sum_le_of_le hrange hheats)⟩
  · exact (hrange x hx).2.trans (Int.le_add_one le_rfl)
  · exact le_trans (by decide) (hrange x hx).1

/-- The line of a slot is ordered. -/
theorem ordered_summaryOf (hvalid : ∀ c ∈ cs, c.Valid) (hlen : cs.length * 100 < 2 ^ 31) :
    Ordered (summaryOf cs p).printedHeat := by
  have hrange := heat_range (p := p) hvalid
  by_cases hne : heatsOf cs p = []
  · simp [Ordered, ThermalMetrics.printedHeat, summaryOf, hne]
  · obtain ⟨hmin, hmax⟩ := (holds_summaryOf (p := p) hvalid hlen).heats hne
    have hpos : ((heatsOf cs p).length : Int) > 0 := Int.ofNat_lt.mpr (List.length_pos_iff.mpr hne)
    have havg := average_between hne (fun x hx => (hrange x hx).1) hmin.2 hmax.2
    simp only [Ordered, ThermalMetrics.printedHeat]
    rw [if_pos (hrange _ hmin.1).2, if_pos (hrange _ hmax.1).1, if_pos (show (summaryOf cs p).schedCount > 0 from hpos)]
    exact havg

end Averages

namespace Tm

variable {tm : Tm} {cs : List TmCall}

theorem Exact.exists_pid (h : tm.Exact cs) {i : Fin MAX_TRACKED_PIDS} (hi : (tm.slot i).pid ≠ 0) :
    ∃ p ∈ tracked cs, tm.slot i = summaryOf cs p := by
  cases hget : (tracked cs)[(i : ℕ)]? with
  | none => exact absurd (h.slots.free i hget).1 hi
  | some p => exact ⟨p, List.mem_of_getElem? hget, h.slots.slot i p hget⟩

theorem Exact.one (h : tm.Exact cs) {p : Int} (hp : p ∈ tracked cs) : ∃! i, (tm.slot i).pid = p := by
  obtain ⟨i, hi⟩ := List.mem_iff_getElem?.mp hp
  have hlt : i < (tracked cs).length := (List.getElem?_eq_some_iff.mp hi).1
  refine ⟨⟨i, hlt.trans_le h.slots.length⟩, ?_, fun j hj => ?_⟩
  · show (tm.slot _).pid = p
    rw [h.slots.slot _ p hi]
    rfl
  · have hj : (tm.slot j).pid = p := hj
    rw [h.slots.pid_eq] at hj
    cases hget : (tracked cs)[(j : ℕ)]? with
    | none =>
      rw [hget] at hj
      exact absurd hj.symm (h.slots.pos p hp)
    | some q =>
      rw [hget] at hj
      obtain rfl : q = p := hj
      exact Fin.ext ((List.getElem?_inj hlt h.slots.nodup).mp (hi.trans hget.symm)).symm

/-- A call for a pid without a slot changes nothing. -/
theorem Exact.record_other (h : tm.Exact cs) {c : TmCall} (hp : c.pid ≠ 0) (hnot : c.pid ∉ tracked (cs ++ [c])) :
    tm.record c = tm := by
  obtain ⟨-, -, hfind⟩ | ⟨i, slot, -, hi, -, -⟩ := h.slots.find hp
  · exact record_of_full hfind
  · exact absurd (List.mem_of_getElem? hi) hnot

theorem Exact.holds (h : tm.Exact cs) (hvalid : ∀ c ∈ cs, c.Valid) (hlen : cs.length * 100 < 2 ^ 31) :
    tm.Holds cs := by
  have hrange := temp_range hvalid (tracked cs)
  have htemps : (tempsOf cs (tracked cs)).length ≤ cs.length := List.length_filterMap_le _ _
  refine ⟨fun p hp => h.one hp, fun i hi => ?_, fun i hi => ?_, fun c hp hnot => h.record_other hp hnot, h.tempCount,
    h.counted, h.tempSum, fun hne => ?_, ?_⟩
  · obtain ⟨p, hp, hslot⟩ := h.exists_pid hi
    rw [hslot]
    exact hp
  · obtain ⟨p, -, hslot⟩ := h.exists_pid hi
    rw [hslot]
    exact holds_summaryOf hvalid hlen
  · rw [h.tempMin, h.tempMax]
    exact ⟨isLeast_foldl_min hne fun x hx => (hrange x hx).2,
      isGreatest_foldl_max hne fun x hx => le_trans (by decide) (hrange x hx).1⟩
  · rw [h.tempCount, h.tempSum]
    exact ⟨inInt_length hlen htemps,
      inInt_of_le hlen (sum_le_of_le (fun x hx => ⟨le_trans (by decide) (hrange x hx).1, (hrange x hx).2⟩) htemps)⟩

/-- The temperature line is ordered when some schedule is counted, and only then. -/
theorem Exact.averagesOrdered_iff (h : tm.Exact cs) (hvalid : ∀ c ∈ cs, c.Valid)
    (hlen : cs.length * 100 < 2 ^ 31) : tm.AveragesOrdered ↔ tempsOf cs (tracked cs) ≠ [] := by
  have hrange := temp_range hvalid (tracked cs)
  refine ⟨fun hord hnil => ?_, fun hne => ⟨?_, fun i hi => ?_⟩⟩
  · -- The sentinels 100 and 0 are printed.
    have hmin := h.tempMin
    have hmax := h.tempMax
    have hcount := h.tempCount
    rw [hnil] at hmin hmax hcount
    have hle : tm.tempMin ≤ tm.tempMax := hord.1.1.trans hord.1.2
    rw [hmin, hmax] at hle
    exact absurd hle (by decide)
  · obtain ⟨hmin, hmax⟩ := (h.holds hvalid hlen).temps hne
    have hpos : tm.tempCount > 0 := by
      rw [h.tempCount]
      exact Int.ofNat_lt.mpr (List.length_pos_iff.mpr hne)
    rw [printedTemp, if_pos hpos, h.tempSum, h.tempCount]
    exact average_between hne (fun x hx => le_trans (by decide) (hrange x hx).1) hmin.2 hmax.2
  · obtain ⟨p, -, hslot⟩ := h.exists_pid hi
    rw [hslot]
    exact ordered_summaryOf hvalid hlen

end Tm

theorem mem_sinceReset {es : List TmEvent} {c : TmCall} (h : c ∈ sinceReset es) : TmEvent.call c ∈ es := by
  induction es using List.reverseRecOn with
  | nil => cases h
  | append_singleton es e ih =>
    rw [sinceReset, foldl_concat] at h
    cases e with
    | call d =>
      obtain hc | hc := List.mem_append.mp h
      · exact List.mem_append_left _ (ih hc)
      · rw [List.mem_singleton.mp hc]
        exact List.mem_append_right _ List.mem_cons_self
    | reset => cases h

/-- The metrics are the exact summary of the calls since the last reset; what is printed of them is in order
when one of these calls is a schedule of a tracked pid, and only then. -/
theorem metrics_exact (es : List TmEvent) (hvalid : ∀ c, TmEvent.call c ∈ es → c.Valid)
    (hlen : (sinceReset es).length * 100 < 2 ^ 31) :
    (Tm.run es).Holds (sinceReset es) ∧
      ((Tm.run es).AveragesOrdered ↔
        ∃ temp pid heat, .schedule temp pid heat ∈ sinceReset es ∧ pid ∈ tracked (sinceReset es)) := by
  have hexact := Tm.exact_run es hvalid
  have hcalls : ∀ c ∈ sinceReset es, c.Valid := fun c hc => hvalid c (mem_sinceReset hc)
  refine ⟨hexact.holds hcalls hlen, (hexact.averagesOrdered_iff hcalls hlen).trans ?_⟩
  constructor
  · intro hne
    obtain ⟨x, hx⟩ := List.exists_mem_of_ne_nil _ hne
    obtain ⟨c, hc, htemp⟩ := List.mem_filterMap.mp hx
    cases c with
    | schedule temp pid heat => exact ⟨temp, pid, heat, hc, (Option.ite_none_right_eq_some.mp htemp).1⟩
    | skip pid => cases htemp
  · rintro ⟨temp, pid, heat, hc, hpid⟩
    exact List.ne_nil_of_mem (List.mem_filterMap.mpr ⟨_, hc, if_pos hpid⟩)

/-- One schedule and one skip. -/
theorem metrics_exact_schedule_skip :
    (Tm.run [.call (.schedule 40 1 7), .call (.skip 2)]).Holds [.schedule 40 1 7, .skip 2] ∧
      (Tm.run [.call (.schedule 40 1 7), .call (.skip 2)]).AveragesOrdered := by
  have hvalid : ∀ c, TmEvent.call c ∈ [.call (.schedule 40 1 7), .call (.skip 2)] → c.Valid := by
    intro c hc
    simp only [List.mem_cons, TmEvent.call.injEq, List.not_mem_nil, or_false] at hc
    obtain rfl | rfl := hc
    · simp [TmCall.Valid]
    · simp [TmCall.Valid]
  have hlen : (sinceReset [.call (.schedule 40 1 7), .call (.skip 2)]).length * 100 < 2 ^ 31 := by decide
  obtain ⟨hholds, hord⟩ := metrics_exact _ hvalid hlen
  exact ⟨hholds, hord.mpr ⟨40, 1, 7, List.mem_cons_self, List.mem_cons_self⟩⟩

/-- With no event the summary prints the average 0, the least 100 and the greatest 0. -/
theorem not_averagesOrdered_boot : (∀ c, TmEvent.call c ∈ [] → c.Valid) ∧ (sinceReset []).length * 100 < 2 ^ 31 ∧
    (Tm.run []).printedTemp = (0, 100, 0) ∧ ¬ (Tm.run []).AveragesOrdered := by
  refine ⟨fun c hc => absurd hc List.not_mem_nil, by decide, by decide, fun h => ?_⟩
  exact absurd h.1 (by decide)

end Xv6
