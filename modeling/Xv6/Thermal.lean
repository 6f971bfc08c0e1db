import Xv6.Proc

/-!
# Heat, temperature, and their metrics

The arithmetic of the thermal scheduler of kernel/proc.c : the temperature of the CPU
(`updateCpuTemp`), the heat of a process (`Proc.decay`, `Proc.heated`), the gate that keeps hot
processes from a hot CPU (`Proc.dominated`), and the table of metrics that the summary at the end
of a test run is printed from (`Tm`).
-/

namespace Xv6

abbrev WARM_TEMP : Int := 60
abbrev HOT_TEMP : Int := 80
abbrev THROTTLE_TEMP : Int := 90
abbrev HEAT_INCREMENT : Int := 10
abbrev HEAT_DECAY : Int := 2
abbrev MAX_HEAT : Int := 100
abbrev HEAT_COOL_THRESH : Int := 30
abbrev HEAT_WARM_THRESH : Int := 60
abbrev THERMAL_LOG_INTERVAL : Int := 10
abbrev STARVE_TICKS : Int := 200
abbrev MAX_TRACKED_PIDS : ℕ := 16

/-- `update_cpu_temp` : the new value of `cpu_temp`. -/
def updateCpuTemp (temp processHeat : Int) : Int :=
  let temp := if processHeat > 0 then temp + (1 + processHeat / 30)
    else temp - (if temp > 50 then 2 else 1)
  if temp > 100 then 100 else if temp < 20 then 20 else temp

namespace Proc

/-- STEP 1 for one process : an idle process loses heat. -/
def decay (p : Proc) : Proc :=
  if (p.state = .runnable ∨ p.state = .sleeping) ∧ p.heat > 0 then
    { p with heat := if p.heat - HEAT_DECAY < 0 then 0 else p.heat - HEAT_DECAY }
  else p

/-- The heat of a process that is given the CPU. -/
def heated (p : Proc) : Int :=
  if p.heat + HEAT_INCREMENT > MAX_HEAT then MAX_HEAT else p.heat + HEAT_INCREMENT

/-- The thermal gate rejects the process. -/
def dominated (p : Proc) (temp : Int) : Bool :=
  p.waitingTick < STARVE_TICKS &&
    ((temp ≥ HOT_TEMP && p.heat ≥ HEAT_COOL_THRESH) ||
      (temp ≥ WARM_TEMP && p.heat ≥ HEAT_WARM_THRESH))

end Proc

/-- The zones of the log. -/
inductive Zone
  | cool
  | warm
  | hot
  deriving DecidableEq, Repr

/-- The zone of a temperature. -/
def zone (temp : Int) : Zone :=
  if temp ≥ HOT_TEMP then .hot else if temp ≥ WARM_TEMP then .warm else .cool

/-- `struct thermal_metrics`. -/
structure ThermalMetrics where
  pid : Int
  schedCount : Int
  skipCount : Int
  heatSum : Int
  heatMin : Int
  heatMax : Int
  deriving DecidableEq, Repr

/-- The `tm` table and the counters next to it. -/
structure Tm where
  slot : Fin MAX_TRACKED_PIDS → ThermalMetrics
  tempSum : Int
  tempCount : Int
  tempMin : Int
  tempMax : Int
  coolingCycles : Int
  hadChildren : Bool

namespace Tm

/-- The values at boot. -/
def boot : Tm where
  slot _ := ⟨0, 0, 0, 0, 0, 0⟩
  tempSum := 0
  tempCount := 0
  tempMin := 100
  tempMax := 0
  coolingCycles := 0
  hadChildren := false

/-- `tm_find` : the slot of the pid, taken if there was none. -/
def find (tm : Tm) (pid : Int) : Tm × Option (Fin MAX_TRACKED_PIDS) :=
  match (List.finRange MAX_TRACKED_PIDS).find? fun i => (tm.slot i).pid == pid with
  | some i => (tm, some i)
  | none =>
    match (List.finRange MAX_TRACKED_PIDS).find? fun i => (tm.slot i).pid == 0 with
    | some i =>
      let m := { tm.slot i with pid := pid, heatMin := MAX_HEAT + 1, heatMax := -1 }
      ({ tm with slot := Function.update tm.slot i m }, some i)
    | none => (tm, none)

/-- `tm_record_schedule`. -/
def recordSchedule (tm : Tm) (temp pid heat : Int) : Tm :=
  match tm.find pid with
  | (tm, none) => tm
  | (tm, some i) =>
    let m := tm.slot i
    let m' := { m with
      schedCount := m.schedCount + 1
      heatSum := m.heatSum + heat
      heatMin := if heat < m.heatMin then heat else m.heatMin
      heatMax := if heat > m.heatMax then heat else m.heatMax }
    { tm with
      slot := Function.update tm.slot i m'
      tempSum := tm.tempSum + temp
      tempCount := tm.tempCount + 1
      tempMin := if temp < tm.tempMin then temp else tm.tempMin
      tempMax := if temp > tm.tempMax then temp else tm.tempMax }

/-- `tm_record_skip`. -/
def recordSkip (tm : Tm) (pid : Int) : Tm :=
  match tm.find pid with
  | (tm, none) => tm
  | (tm, some i) =>
    let m := { tm.slot i with skipCount := (tm.slot i).skipCount + 1 }
    { tm with slot := Function.update tm.slot i m }

/-- `tm_reset`. -/
def reset : Tm where
  slot _ := ⟨0, 0, 0, 0, MAX_HEAT + 1, -1⟩
  tempSum := 0
  tempCount := 0
  tempMin := 100
  tempMax := 0
  coolingCycles := 0
  hadChildren := false

end Tm

end Xv6
