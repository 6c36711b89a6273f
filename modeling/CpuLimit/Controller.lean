import CpuLimit.Basic
import CpuLimit.Library.MovingAverage
import CpuLimit.Library.Runs

/-!
# The duty-cycle controller

The arithmetic of one cycle of `limit_process`: the summed usage of the members,
the adjustment and clamping of the working rate, the dynamic time slot, and its
division into a working and a sleeping slice. Two values survive a cycle: the
working rate, which starts at the placeholder -1 in every call, and the static
time slot, which survives the call as well.
-/
namespace CpuLimit

open Library

/-- `EPSILON`. -/
def epsilon : ℚ := 1 / 1000000000000

/-- `TIME_SLOT`, in microseconds. -/
def timeSlotBase : ℚ := 100000

def minTimeSlot : ℚ := timeSlotBase

def maxTimeSlot : ℚ := timeSlotBase * 5

/-- `get_dynamic_time_slot`: the new value of its static `time_slot`, which is
also its result. A missing load means that `getloadavg` failed. -/
def getDynamicTimeSlot (ncpu : ℤ) (load : Option ℚ) (timeSlot : ℚ) : ℚ :=
  match load with
  | none => timeSlot
  | some load =>
    let newTimeSlot := timeSlot * load / ncpu / (3 / 10)
    let newTimeSlot := cMax newTimeSlot minTimeSlot
    let newTimeSlot := cMin newTimeSlot maxTimeSlot
    timeSlot * (95 / 100) + newTimeSlot * (5 / 100)

/-- One turn of the loop that sums the usage of the members. -/
def addUsage (pcpu usage : ℚ) : ℚ :=
  if usage < 0 then pcpu else (if pcpu < 0 then 0 else pcpu) + usage

/-- `pcpu` after that loop; negative when no member has an estimate. -/
def sumUsage (usages : List ℚ) : ℚ := usages.foldl addUsage (-1)

/-- The divisor of the multiplicative adjustment. -/
def divisor (pcpu : ℚ) : ℚ := cMax pcpu epsilon

def adjustRate (limit pcpu workingrate : ℚ) : ℚ :=
  if pcpu < 0 then limit else workingrate * limit / divisor pcpu

/-- Clamp to the valid range. -/
def clampRate (workingrate : ℚ) : ℚ := cMax (cMin workingrate (1 - epsilon)) epsilon

/-- The controller variables of `limit_process` and `get_dynamic_time_slot`. -/
structure Duty where
  workingrate : ℚ
  timeSlot : ℚ
  twork : Timespec
  tsleep : Timespec
  deriving DecidableEq

namespace Duty

/-- The start of a call of `limit_process`, with the static time slot found there. -/
def start (timeSlot : ℚ) : Duty := ⟨-1, timeSlot, ⟨0, 0⟩, ⟨0, 0⟩⟩

/-- The computations of one cycle, from the usages of the members in list order. -/
def cycle (ncpu : ℤ) (limit : ℚ) (usages : List ℚ) (load : Option ℚ) (d : Duty) : Duty :=
  let workingrate := clampRate (adjustRate limit (sumUsage usages) d.workingrate)
  let timeSlot := getDynamicTimeSlot ncpu load d.timeSlot
  let tworkTotalNsec := timeSlot * 1000 * workingrate
  let tsleepTotalNsec := timeSlot * 1000 - tworkTotalNsec
  { workingrate := workingrate
    timeSlot := timeSlot
    twork := nsec2timespec tworkTotalNsec
    tsleep := nsec2timespec tsleepTotalNsec }

end Duty

theorem epsilon_pos : 0 < epsilon := by norm_num [epsilon]

theorem epsilon_lt_one_sub : epsilon < 1 - epsilon := by norm_num [epsilon]

theorem divisor_pos (pcpu : ℚ) : 0 < divisor pcpu := by
  rw [divisor, cMax_eq_max]
  exact lt_max_of_lt_right epsilon_pos

theorem clampRate_eq (w : ℚ) : clampRate w = max (min w (1 - epsilon)) epsilon := by
  simp [clampRate]

theorem clampRate_mem (w : ℚ) : epsilon ≤ clampRate w ∧ clampRate w ≤ 1 - epsilon := by
  rw [clampRate_eq]
  exact ⟨le_max_right _ _, max_le (min_le_right _ _) epsilon_lt_one_sub.le⟩

/-! ## The summed usage -/

theorem addUsage_of_neg {pcpu usage : ℚ} (h : usage < 0) : addUsage pcpu usage = pcpu := by
  simp [addUsage, h]

/-- Once some member has an estimate, the sum collects the nonnegative usages. -/
theorem foldl_addUsage_of_nonneg {pcpu : ℚ} (hp : 0 ≤ pcpu) (usages : List ℚ) :
    usages.foldl addUsage pcpu = pcpu + (usages.filter fun u => 0 ≤ u).sum ∧
      0 ≤ usages.foldl addUsage pcpu := by
  induction usages generalizing pcpu with
  | nil => simpa using hp
  | cons u usages ih =>
    rw [List.foldl_cons]
    by_cases hu : u < 0
    · rw [addUsage_of_neg hu, List.filter_cons_of_neg (by simpa using hu)]
      exact ih hp
    · have hadd : addUsage pcpu u = pcpu + u := by simp [addUsage, hu, not_lt.mpr hp]
      have hu0 : 0 ≤ u := not_lt.mp hu
      rw [hadd, List.filter_cons_of_pos (by simpa using hu0), List.sum_cons, ← add_assoc]
      exact ih (by linarith)

/-- The placeholder survives the loop exactly when no member has an estimate. -/
theorem sumUsage_neg_iff (usages : List ℚ) : sumUsage usages < 0 ↔ ∀ u ∈ usages, u < 0 := by
  unfold sumUsage
  induction usages with
  | nil => simp
  | cons u usages ih =>
    rw [List.foldl_cons]
    by_cases hu : u < 0
    · rw [addUsage_of_neg hu, ih]
      simp [hu]
    · have hadd : addUsage (-1) u = u := by norm_num [addUsage, hu]
      have hpos := (foldl_addUsage_of_nonneg (not_lt.mp hu) usages).2
      rw [hadd]
      constructor
      · intro h; linarith
      · intro h; exact absurd (h u (by simp)) hu

/-- With an estimate for every member the sum is the sum of the usages. -/
theorem sumUsage_of_nonneg {usages : List ℚ} (hne : usages ≠ []) (h : ∀ u ∈ usages, 0 ≤ u) :
    sumUsage usages = usages.sum := by
  cases usages with
  | nil => exact absurd rfl hne
  | cons u usages =>
    have hu : 0 ≤ u := h u (by simp)
    have hadd : addUsage (-1) u = u := by norm_num [addUsage, not_lt.mpr hu]
    have hrest : (usages.filter fun x => 0 ≤ x) = usages := by
      rw [List.filter_eq_self]
      intro x hx
      simpa using h x (by simp [hx])
    rw [sumUsage, List.foldl_cons, hadd, (foldl_addUsage_of_nonneg hu usages).1, hrest,
      List.sum_cons]

/-! ## The time slot and its slices -/

/-- The static time slot stays between its bounds. -/
def SlotInRange (timeSlot : ℚ) : Prop := minTimeSlot ≤ timeSlot ∧ timeSlot ≤ maxTimeSlot

theorem slotInRange_base : SlotInRange timeSlotBase := by
  norm_num [SlotInRange, minTimeSlot, maxTimeSlot, timeSlotBase]

/-- The new slot is a moving average of values between the bounds. -/
theorem SlotInRange.next {timeSlot : ℚ} (h : SlotInRange timeSlot) (ncpu : ℤ)
    (load : Option ℚ) : SlotInRange (getDynamicTimeSlot ncpu load timeSlot) := by
  cases load with
  | none => exact h
  | some load =>
    have hle : minTimeSlot ≤ maxTimeSlot := by norm_num [minTimeSlot, maxTimeSlot, timeSlotBase]
    let target := cMin (cMax (timeSlot * load / ncpu / (3 / 10)) minTimeSlot) maxTimeSlot
    have hlo : minTimeSlot ≤ target := by
      simp only [target, cMin_eq_min, cMax_eq_max]
      exact le_min (le_max_right _ _) hle
    have hhi : target ≤ maxTimeSlot := by
      simp only [target, cMin_eq_min]
      exact min_le_right _ _
    have havg : getDynamicTimeSlot ncpu (some load) timeSlot =
        MovingAverage.step (5 / 100) timeSlot target := by
      simp only [getDynamicTimeSlot, MovingAverage.step, target]
      ring
    rw [havg]
    exact ⟨MovingAverage.le_step (by norm_num) (by norm_num) h.1 hlo,
      MovingAverage.step_le (by norm_num) (by norm_num) h.2 hhi⟩

/-- `tv_sec` and `tv_nsec` are a normalised, nonnegative duration. -/
def Timespec.Normal (t : Timespec) : Prop := 0 ≤ t.tvSec ∧ 0 ≤ t.tvNsec ∧ t.tvNsec < 1000000000

/-- Two truncated durations lose less than two nanoseconds together. -/
theorem nsec2timespec_add {a b : ℚ} (ha : 0 ≤ a) (hb : 0 ≤ b) :
    (nsec2timespec a).Normal ∧ (nsec2timespec b).Normal ∧
      ((nsec2timespec a).nsec + (nsec2timespec b).nsec : ℚ) ≤ a + b ∧
      a + b - 2 < ((nsec2timespec a).nsec + (nsec2timespec b).nsec : ℚ) := by
  obtain ⟨ha1, ha2, ha3, hale, halt⟩ := nsec2timespec_spec ha
  obtain ⟨hb1, hb2, hb3, hble, hblt⟩ := nsec2timespec_spec hb
  exact ⟨⟨ha1, ha2, ha3⟩, ⟨hb1, hb2, hb3⟩, by linarith, by linarith⟩

/-- What one cycle leaves behind. -/
structure Duty.Valid (d : Duty) : Prop where
  rate : epsilon ≤ d.workingrate ∧ d.workingrate ≤ 1 - epsilon
  slot : SlotInRange d.timeSlot
  twork : d.twork.Normal
  tsleep : d.tsleep.Normal
  total_le : ((d.twork.nsec + d.tsleep.nsec : ℤ) : ℚ) ≤ 1000 * d.timeSlot
  lt_total : 1000 * d.timeSlot - 2 < ((d.twork.nsec + d.tsleep.nsec : ℤ) : ℚ)

theorem Duty.cycle_valid (ncpu : ℤ) (limit : ℚ) (usages : List ℚ) (load : Option ℚ) {d : Duty}
    (h : SlotInRange d.timeSlot) : (d.cycle ncpu limit usages load).Valid := by
  have hslot := h.next ncpu load
  obtain ⟨hlo, hhi⟩ := clampRate_mem (adjustRate limit (sumUsage usages) d.workingrate)
  have heps := epsilon_pos
  have hpos : 0 ≤ getDynamicTimeSlot ncpu load d.timeSlot * 1000 := by
    have hmin : (0 : ℚ) ≤ minTimeSlot := by norm_num [minTimeSlot, timeSlotBase]
    linarith [hslot.1]
  have hwork : 0 ≤ getDynamicTimeSlot ncpu load d.timeSlot * 1000 *
      clampRate (adjustRate limit (sumUsage usages) d.workingrate) :=
    mul_nonneg hpos (by linarith)
  have hsleep : 0 ≤ getDynamicTimeSlot ncpu load d.timeSlot * 1000 -
      getDynamicTimeSlot ncpu load d.timeSlot * 1000 *
        clampRate (adjustRate limit (sumUsage usages) d.workingrate) := by
    have hle := mul_le_mul_of_nonneg_left (show clampRate (adjustRate limit (sumUsage usages)
      d.workingrate) ≤ 1 by linarith) hpos
    linarith
  obtain ⟨hw, hs, htl, htg⟩ := nsec2timespec_add hwork hsleep
  refine ⟨⟨hlo, hhi⟩, hslot, hw, hs, ?_, ?_⟩
  · simp only [Duty.cycle, Int.cast_add]
    linarith
  · simp only [Duty.cycle, Int.cast_add]
    linarith

/-! ## Runs of the controller -/

/-- What the controller meets over the life of the program: new calls of
`limit_process`, and cycles with the usages of the members and a load average. -/
inductive DutyInput
  | call
  | cycle (usages : List ℚ) (load : Option ℚ)

def Duty.apply (ncpu : ℤ) (limit : ℚ) (d : Duty) : DutyInput → Duty
  | .call => start d.timeSlot
  | .cycle usages load => d.cycle ncpu limit usages load

theorem Duty.slotInRange_run (ncpu : ℤ) (limit : ℚ) {d : Duty} (h : SlotInRange d.timeSlot)
    (inputs : List DutyInput) : SlotInRange (Runs.run (apply ncpu limit) d inputs).timeSlot := by
  induction inputs generalizing d with
  | nil => exact h
  | cons input inputs ih =>
    apply ih
    cases input with
    | call => exact h
    | cycle usages load => exact h.next ncpu load

/-- From the start of the program, over any calls and cycles: the time slot stays
in range, and every further cycle divides by a positive number and leaves a valid
duty. Neither the limit, the loads nor the usages need to be in any range. -/
theorem dutyCycle_valid (ncpu : ℤ) (limit : ℚ) (inputs : List DutyInput) :
    let d := Runs.run (Duty.apply ncpu limit) (Duty.start timeSlotBase) inputs
    SlotInRange d.timeSlot ∧
      ∀ usages load, 0 < divisor (sumUsage usages) ∧ (d.cycle ncpu limit usages load).Valid := by
  have h := Duty.slotInRange_run ncpu limit (d := Duty.start timeSlotBase) slotInRange_base inputs
  exact ⟨h, fun usages load => ⟨divisor_pos _, Duty.cycle_valid ncpu limit usages load h⟩⟩

end CpuLimit
