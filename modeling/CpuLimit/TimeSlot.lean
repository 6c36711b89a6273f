import CpuLimit.Controller
import CpuLimit.Library.Contraction

/-!
# The time slot follows the load

The static time slot of `get_dynamic_time_slot` over the life of the program, through any
calls of `limit_process`. At a load of 0.3 for each CPU it stands still. Under lower loads it
approaches its minimum, under higher loads its maximum, each time by a factor that depends
on that load alone.
-/
namespace CpuLimit

open Library

/-- The load, in units of 0.3 for each CPU. -/
def relativeLoad (ncpu : ℤ) (load : ℚ) : ℚ := load / ncpu / (3 / 10)

theorem getDynamicTimeSlot_some (ncpu : ℤ) (load timeSlot : ℚ) :
    getDynamicTimeSlot ncpu (some load) timeSlot = timeSlot * (95 / 100) +
      min (max (timeSlot * relativeLoad ncpu load) minTimeSlot) maxTimeSlot * (5 / 100) := by
  simp only [getDynamicTimeSlot, cMin_eq_min, cMax_eq_max, relativeLoad, mul_div_assoc]

section Step

variable {ncpu : ℤ} {load timeSlot : ℚ}

/-- A low load moves the slot toward its minimum. -/
theorem slot_falls (h : SlotInRange timeSlot) (h0 : 0 ≤ relativeLoad ncpu load)
    (h1 : relativeLoad ncpu load ≤ 1) :
    getDynamicTimeSlot ncpu (some load) timeSlot - minTimeSlot ≤
      (95 / 100 + 5 / 100 * relativeLoad ncpu load) * (timeSlot - minTimeSlot) := by
  have hmin : (0 : ℚ) ≤ minTimeSlot := by norm_num [minTimeSlot, timeSlotBase]
  have hgap : 0 ≤ timeSlot - minTimeSlot := sub_nonneg.mpr h.1
  have htarget : max (timeSlot * relativeLoad ncpu load) minTimeSlot - minTimeSlot ≤
      relativeLoad ncpu load * (timeSlot - minTimeSlot) := by
    rcases max_cases (timeSlot * relativeLoad ncpu load) minTimeSlot with ⟨hmax, -⟩ | ⟨hmax, -⟩
    · rw [hmax]
      nlinarith [mul_le_mul_of_nonneg_right h1 hmin]
    · rw [hmax, sub_self]
      exact mul_nonneg h0 hgap
  rw [getDynamicTimeSlot_some]
  have hclamp := min_le_left (max (timeSlot * relativeLoad ncpu load) minTimeSlot) maxTimeSlot
  linarith

/-- A high load moves it toward its maximum. -/
theorem slot_rises (h : SlotInRange timeSlot) (h1 : 1 ≤ relativeLoad ncpu load) :
    maxTimeSlot - getDynamicTimeSlot ncpu (some load) timeSlot ≤
      (95 / 100 + 5 / 100 * max 0 ((5 - relativeLoad ncpu load) / 4)) *
        (maxTimeSlot - timeSlot) := by
  have hgap : 0 ≤ maxTimeSlot - timeSlot := sub_nonneg.mpr h.2
  have hfactor : 0 ≤ max 0 ((5 - relativeLoad ncpu load) / 4) * (maxTimeSlot - timeSlot) :=
    mul_nonneg (le_max_left _ _) hgap
  have htarget : maxTimeSlot -
      min (max (timeSlot * relativeLoad ncpu load) minTimeSlot) maxTimeSlot ≤
        max 0 ((5 - relativeLoad ncpu load) / 4) * (maxTimeSlot - timeSlot) := by
    rcases min_cases (max (timeSlot * relativeLoad ncpu load) minTimeSlot) maxTimeSlot with
      ⟨hmin, -⟩ | ⟨hmin, -⟩
    · rw [hmin]
      have hlinear : maxTimeSlot - timeSlot * relativeLoad ncpu load ≤
          (5 - relativeLoad ncpu load) / 4 * (maxTimeSlot - timeSlot) := by
        have hcorner : 0 ≤ (relativeLoad ncpu load - 1) * (timeSlot - minTimeSlot) :=
          mul_nonneg (sub_nonneg.mpr h1) (sub_nonneg.mpr h.1)
        have hmax : maxTimeSlot = 5 * minTimeSlot := by
          norm_num [maxTimeSlot, minTimeSlot, timeSlotBase]
        rw [hmax]
        linarith
      have hle := mul_le_mul_of_nonneg_right
        (le_max_right 0 ((5 - relativeLoad ncpu load) / 4)) hgap
      have hclamp := le_max_left (timeSlot * relativeLoad ncpu load) minTimeSlot
      linarith
    · rw [hmin, sub_self]
      exact hfactor
  rw [getDynamicTimeSlot_some]
  linarith

end Step

namespace Duty

/-- The load averages that the cycles could get. -/
def loads : List DutyInput → List ℚ
  | [] => []
  | .cycle _ (some load) :: inputs => load :: loads inputs
  | _ :: inputs => loads inputs

/-- Only these change the slot. -/
theorem timeSlot_run (ncpu : ℤ) (limit : ℚ) (d : Duty) (inputs : List DutyInput) :
    (Runs.run (apply ncpu limit) d inputs).timeSlot =
      Runs.run (fun slot load => getDynamicTimeSlot ncpu (some load) slot) d.timeSlot
        (loads inputs) := by
  induction inputs generalizing d with
  | nil => rfl
  | cons input inputs ih =>
    rw [Runs.run_cons, ih]
    cases input with
    | call => rfl
    | cycle usages load => cases load <;> rfl

end Duty

/-- The distance of the slot from its minimum under low loads, and from its maximum under
high ones. -/
theorem slotFollowsLoad (ncpu : ℤ) (limit : ℚ) {d : Duty} (hd : SlotInRange d.timeSlot)
    (inputs : List DutyInput) :
    ((∀ load ∈ Duty.loads inputs, 0 ≤ relativeLoad ncpu load ∧ relativeLoad ncpu load ≤ 1) →
      (Runs.run (Duty.apply ncpu limit) d inputs).timeSlot - minTimeSlot ≤
        ((Duty.loads inputs).map fun load => 95 / 100 + 5 / 100 * relativeLoad ncpu load).prod *
          (d.timeSlot - minTimeSlot)) ∧
    ((∀ load ∈ Duty.loads inputs, 1 ≤ relativeLoad ncpu load) →
      maxTimeSlot - (Runs.run (Duty.apply ncpu limit) d inputs).timeSlot ≤
        ((Duty.loads inputs).map fun load =>
          95 / 100 + 5 / 100 * max 0 ((5 - relativeLoad ncpu load) / 4)).prod *
            (maxTimeSlot - d.timeSlot)) := by
  rw [Duty.timeSlot_run]
  constructor
  · intro h
    refine Contraction.dist_run_le (fun slot => slot - minTimeSlot) ?_
      (fun slot load hslot => hslot.next ncpu (some load)) ?_ hd
    · intro load hload
      linarith [(h load hload).1]
    · exact fun slot load hload hslot => slot_falls hslot (h load hload).1 (h load hload).2
  · intro h
    refine Contraction.dist_run_le (fun slot => maxTimeSlot - slot) ?_
      (fun slot load hslot => hslot.next ncpu (some load)) ?_ hd
    · intro load hload
      linarith [le_max_left 0 ((5 - relativeLoad ncpu load) / 4)]
    · exact fun slot load hload hslot => slot_rises hslot (h load hload)

/-- Four CPUs that are loaded half as much as the slot stands still at, through a failure of
`getloadavg` and a new call of `limit_process`. -/
theorem slotFollowsLoad_half :
    (Runs.run (Duty.apply 4 (1 / 2)) (Duty.start 300000)
      [.cycle [] (some (6 / 10)), .cycle [] none, .call, .cycle [] (some (6 / 10))]).timeSlot -
        minTimeSlot ≤ (975 / 1000) ^ 2 * 200000 := by
  have hd : SlotInRange (Duty.start 300000).timeSlot := by
    norm_num [SlotInRange, minTimeSlot, maxTimeSlot, timeSlotBase, Duty.start]
  refine ((slotFollowsLoad 4 (1 / 2) hd _).1 ?_).trans_eq ?_
  · norm_num [Duty.loads, relativeLoad]
  · norm_num [Duty.loads, relativeLoad, minTimeSlot, timeSlotBase, Duty.start]

end CpuLimit
