import CpuLimit.Library.IntegralControl
import CpuLimit.Steering

/-!
# The limit in the long run

The working rate is a multiplicative integral controller of the summed usage. Over any
processes and any clock, the usages of many cycles are the limit in the geometric mean, as
long as the rate does not touch the ends of its range; and a usage that stays on one side
of the limit by some factor brings the rate to its end within a number of cycles that
depends on the factor alone.
-/
namespace CpuLimit

open Library

namespace LimitState

/-- What the adjustment of a cycle divides by. -/
def divisorAt (s : LimitState) (i : CycleInput) : ℚ := divisor (sumUsage (s.updated i).usages)

/-- What the adjustments of a run divide by: the summed usages, but at least `EPSILON`. -/
def divisors (ncpu : ℤ) (limit : ℚ) (s : LimitState) (inputs : List CycleInput) : List ℚ :=
  Runs.trace (limitCycle ncpu limit) (fun s i => some (s.divisorAt i)) s inputs

/-- Every cycle of the run multiplies the rate and meets `good`, which sees the divisor and
the new rate. -/
def Multiplies (ncpu : ℤ) (limit : ℚ) (good : ℚ → ℚ → Prop) (s : LimitState)
    (inputs : List CycleInput) : Prop :=
  Runs.AlongPartial (limitCycle ncpu limit)
    (fun s i t => ¬ s.SetsFromLimit i ∧ good (s.divisorAt i) t.duty.workingrate) s inputs

instance (ncpu : ℤ) (limit : ℚ) (good : ℚ → ℚ → Prop) [∀ d w, Decidable (good d w)]
    (s : LimitState) (inputs : List CycleInput) : Decidable (s.Multiplies ncpu limit good inputs) :=
  inferInstanceAs (Decidable (Runs.AlongPartial _ _ _ _))

variable {ncpu : ℤ} {limit : ℚ} {s t : LimitState} {i : CycleInput} {inputs : List CycleInput}

theorem workingrate_of_limitCycle (h : s.limitCycle ncpu limit i = some t) :
    t.duty.workingrate = clampRate
      (adjustRate limit (sumUsage (s.updated i).usages) s.duty.workingrate) := by
  unfold limitCycle at h
  dsimp only at h
  split_ifs at h
  · cases h
    rfl
  · cases h
    rfl

/-- After every cycle the rate is in its range. -/
theorem workingrate_mem (h : s.limitCycle ncpu limit i = some t) :
    epsilon ≤ t.duty.workingrate ∧ t.duty.workingrate ≤ 1 - epsilon := by
  rw [workingrate_of_limitCycle h]
  exact clampRate_mem _

/-- A cycle that multiplies is a step of the integral controller. -/
theorem workingrate_eq_step (h : s.limitCycle ncpu limit i = some t) (hm : ¬ s.SetsFromLimit i) :
    t.duty.workingrate = IntegralControl.step epsilon (1 - epsilon) limit s.duty.workingrate
      (s.divisorAt i) := by
  have hpcpu : ¬ sumUsage (s.updated i).usages < 0 := hm
  rw [workingrate_of_limitCycle h, clampRate_eq, adjustRate, if_neg hpcpu]
  rfl

/-- A run whose cycles multiply is a run of the integral controller. -/
theorem Multiplies.refines {good : ℚ → ℚ → Prop} (h : s.Multiplies ncpu limit good inputs) :
    ∃ t, Runs.runPartial (limitCycle ncpu limit) s inputs = some t ∧
      t.duty.workingrate = Runs.run (IntegralControl.step epsilon (1 - epsilon) limit)
        s.duty.workingrate (s.divisors ncpu limit inputs) ∧
      Runs.Along (IntegralControl.step epsilon (1 - epsilon) limit)
        (fun w d => good d (IntegralControl.step epsilon (1 - epsilon) limit w d))
        s.duty.workingrate (s.divisors ncpu limit inputs) ∧
      (s.divisors ncpu limit inputs).length = inputs.length := by
  refine Runs.AlongPartial.refines (fun s => s.duty.workingrate) (fun s i t hst hgood => ?_) h
  have hstep := workingrate_eq_step hst hgood.1
  exact ⟨s.divisorAt i, rfl, hstep, hstep ▸ hgood.2⟩

theorem divisors_pos : ∀ d ∈ s.divisors ncpu limit inputs, 0 < d :=
  Runs.forall_mem_trace fun _ _ _ ho => Option.some.inj ho ▸ divisor_pos _

end LimitState

/-- The usages of many cycles, in the geometric mean: not above the limit unless a cycle
ends at the lowest rate, and not below it unless one ends at the highest. How many cycles
are enough depends on neither the processes nor the clock nor the limit. -/
theorem limitKept {δ : ℚ} (hδ : 0 < δ) :
    ∃ enough : ℕ, ∀ (ncpu : ℤ) (limit : ℚ), 0 < limit →
      ∀ (start s : LimitState) (first : CycleInput) (inputs : List CycleInput),
        start.limitCycle ncpu limit first = some s → enough ≤ inputs.length →
        (s.Multiplies ncpu limit (fun _ w => epsilon < w) inputs →
          (s.divisors ncpu limit inputs).prod ≤ ((1 + δ) * limit) ^ inputs.length) ∧
        (s.Multiplies ncpu limit (fun _ w => w < 1 - epsilon) inputs →
          limit ^ inputs.length ≤
            (1 + δ) ^ inputs.length * (s.divisors ncpu limit inputs).prod) := by
  have hfactor : 1 < 1 + δ := lt_add_of_pos_right 1 hδ
  obtain ⟨enough, henough⟩ := IntegralControl.exists_enough epsilon_pos (1 - epsilon) hfactor
  refine ⟨enough, fun ncpu limit hlimit start s first inputs hfirst hlength => ⟨?_, ?_⟩⟩
  · intro h
    obtain ⟨t, -, -, halong, hlen⟩ := h.refines
    have hmean := IntegralControl.prod_le epsilon_pos epsilon_lt_one_sub.le hlimit.le
      (LimitState.workingrate_mem hfirst) LimitState.divisors_pos
      (henough _ (hlen ▸ hlength)) halong
    rwa [hlen] at hmean
  · intro h
    obtain ⟨t, -, -, halong, hlen⟩ := h.refines
    have hmean := IntegralControl.le_prod epsilon_pos epsilon_lt_one_sub.le hlimit.le
      (LimitState.workingrate_mem hfirst) LimitState.divisors_pos
      (henough _ (hlen ▸ hlength)) halong
    rwa [hlen] at hmean

/-! ## Usages at the limit -/

/-- Members that use just the limit together, once estimated, leave the working rate as it
is in every cycle. The induction is over the inputs. -/
theorem SteadyGroup.multiplies_of_total_eq {G : SteadyGroup} (ncpu : ℤ) {limit : ℚ}
    (htotal : G.total = limit) (hlimit : epsilon < limit) (hcap : ∀ m ∈ G.members, m.rate ≤ 1)
    {good : ℚ → ℚ → Prop} {inputs : List CycleInput}
    (hreports : ∀ i ∈ inputs, G.Reports i.now i.yielded)
    (hdelivers : ∀ i ∈ inputs, G.Delivers i) {s : LimitState}
    (hspaced : inputs.IsChain fun i j => minDt ≤ timediffInMs j.now i.now)
    (hhead : ∀ i ∈ inputs.head?, minDt ≤ timediffInMs i.now s.group.lastUpdate)
    (hs : G.Holds s.group.lastUpdate (fun m u => u = m.rate) s.group)
    (hrate : epsilon ≤ s.duty.workingrate ∧ s.duty.workingrate ≤ 1 - epsilon)
    (hgood : good limit s.duty.workingrate) : s.Multiplies ncpu limit good inputs := by
  have hpos : 0 < limit := epsilon_pos.trans hlimit
  induction inputs generalizing s with
  | nil => trivial
  | cons i inputs ih =>
    have hri := hreports i (by simp)
    have hlong := hhead i (by simp)
    have hdt : timediffInMs i.now s.group.lastUpdate ≠ 0 := by
      have hmin : (0 : ℚ) < minDt := by norm_num [minDt]
      exact (lt_of_lt_of_le hmin hlong).ne'
    have hnext : G.Holds i.now (fun m u => u = m.rate) (s.updated i) := by
      refine hs.update_long hri hlong fun m hm u hu => ?_
      rw [mul_div_cancel_right₀ _ hdt, SteadyGroup.nextUsage, hu,
        if_neg (not_lt.mpr (G.rate_nonneg m hm)), min_eq_left (hcap m hm),
        MovingAverage.step_self]
    have hsum := SteadyGroup.Holds.sumUsage_mem hs.sound hri
      (hnext.mono fun m _ u hu => And.intro hu.ge hu.le) G.rate_nonneg
    have husage : sumUsage (s.updated i).usages = limit :=
      (le_antisymm hsum.2 hsum.1).trans htotal
    have hdivisor : divisor limit = limit := by
      rw [divisor, cMax_eq_max, max_eq_left hlimit.le]
    have hclamp : clampRate (adjustRate limit (sumUsage (s.updated i).usages)
        s.duty.workingrate) = s.duty.workingrate := by
      rw [husage, adjustRate, if_neg (not_lt.mpr hpos.le), hdivisor,
        mul_div_cancel_right₀ _ hpos.ne', clampRate_eq, min_eq_left hrate.2, max_eq_left hrate.1]
    have hcycle := G.limitCycle_eq ncpu limit hs.sound hri (hdelivers i (by simp))
    have hduty : (s.duty.cycle ncpu limit (s.updated i).usages i.load).workingrate =
        s.duty.workingrate := hclamp
    have hlast : (s.updated i).lastUpdate = i.now := by
      rw [LimitState.updated, ProcessGroup.update_lastUpdate, if_neg (not_lt.mpr hlong)]
    rw [LimitState.Multiplies, Runs.alongPartial_cons_iff hcycle]
    refine ⟨⟨?_, ?_⟩, ih (fun j hj => hreports j (by simp [hj]))
      (fun j hj => hdelivers j (by simp [hj])) hspaced.tail ?_ ?_ ?_ ?_⟩
    · rw [LimitState.SetsFromLimit, husage]
      exact not_lt.mpr hpos.le
    · dsimp only
      rw [LimitState.divisorAt, husage, hdivisor, hduty]
      exact hgood
    · intro j hj
      dsimp only
      rw [hlast]
      exact hspaced.rel_head? hj
    · dsimp only
      rw [hlast]
      exact hnext
    · dsimp only
      rw [hduty]
      exact hrate
    · dsimp only
      rw [hduty]
      exact hgood

/-- A clock reading, in milliseconds. -/
def atMs (ms : ℕ) : Timespec := ⟨ms / 1000, ms % 1000 * 1000000⟩

theorem ms_atMs (ms : ℕ) : (atMs ms).ms = ms := by
  have hsplit : (ms : ℤ) / 1000 * 1000 + ms % 1000 = ms := by omega
  have hcast : (((ms : ℤ) / 1000 : ℤ) : ℚ) * 1000 + ((ms % 1000 : ℤ) : ℚ) = ms := by
    exact_mod_cast hsplit
  rw [Timespec.ms, atMs, ← hcast, Int.cast_mul]
  ring

theorem half_nonneg : (0 : ℚ) ≤ 1 / 2 := by norm_num

theorem loneScan_reports (ms : ℕ) :
    (loneGroup (1 / 2) half_nonneg).Reports (atMs ms) (loneScan (1 / 2) ms) := by
  simp [SteadyGroup.Reports, loneGroup, loneScan, SteadyMember.cputimeAt, ms_atMs]

/-- Half a CPU, scanned every 30 milliseconds, from the third cycle of the lone run on. -/
def halfCycle (k : ℕ) : CycleInput :=
  ⟨atMs (61 + 30 * k), loneScan (1 / 2) (61 + 30 * k : ℕ), none, fun _ => false, fun _ => false⟩

def halfCycles (n : ℕ) : List CycleInput := (List.range n).map halfCycle

/-- With the limit at half a CPU, the rate stays at a half. -/
theorem multiplies_halfCycles :
    ∃ start s, (loneRun (1 / 2) half_nonneg).enter.limitCycle 1 (1 / 2) (loneCycle (1 / 2) 1) =
        some start ∧ start.limitCycle 1 (1 / 2) (loneCycle (1 / 2) 31) = some s ∧
      ∀ n (good : ℚ → ℚ → Prop), good (1 / 2) (1 / 2) →
        s.Multiplies 1 (1 / 2) good (halfCycles n) := by
  obtain ⟨start, hstart, hholds, hlast, hrate⟩ :=
    (loneRun (1 / 2) half_nonneg).first_cycle 1 (1 / 2)
  obtain ⟨s, hs, hholds', hlast', hrate'⟩ :=
    (loneRun (1 / 2) half_nonneg).second_cycle 1 (1 / 2) hholds hlast
  refine ⟨start, s, hstart, hs, fun n good hgood => ?_⟩
  have hcounted : (loneRun (1 / 2) half_nonneg).countedShare = 1 := by decide +kernel
  have htotal : (loneGroup (1 / 2) half_nonneg).total = 1 / 2 := by decide +kernel
  have hfirst : ∀ m ∈ (loneGroup (1 / 2) half_nonneg).members,
      (loneRun (1 / 2) half_nonneg).firstEstimate m = m.rate := by decide +kernel
  have hhalf : s.duty.workingrate = 1 / 2 := by
    rw [hrate', hrate]
    decide +kernel
  have hmem : ∀ i ∈ halfCycles n, ∃ k < n, halfCycle k = i := by
    simp [halfCycles]
  refine SteadyGroup.multiplies_of_total_eq 1 htotal (by norm_num [epsilon]) (by decide +kernel)
    ?_ ?_ ?_ ?_ ?_ ?_ ?_
  · intro i hi
    obtain ⟨k, -, rfl⟩ := hmem i hi
    exact loneScan_reports _
  · intro i hi
    obtain ⟨k, -, rfl⟩ := hmem i hi
    exact fun m _ => ⟨rfl, rfl⟩
  · have hstep : ∀ k, minDt ≤ timediffInMs (halfCycle (k + 1)).now (halfCycle k).now := by
      intro k
      have hgap : (halfCycle (k + 1)).now.ms - (halfCycle k).now.ms = 30 := by
        rw [halfCycle, halfCycle, ms_atMs, ms_atMs]
        push_cast
        ring
      rw [timediffInMs_eq, hgap]
      norm_num [minDt]
    rw [halfCycles, List.isChain_map, List.isChain_range]
    exact fun k _ => hstep k
  · intro i hi
    have hzero : i = halfCycle 0 := by
      cases n with
      | zero => simp [halfCycles] at hi
      | succ n => simpa [halfCycles, List.range_succ_eq_map] using hi.symm
    rw [hzero, hlast', timediffInMs_eq, halfCycle, ms_atMs]
    norm_num [minDt, loneRun, loneCycle, Timespec.ms]
  · rw [hlast']
    exact hholds'.mono fun m hm u hu => hu.trans (hfirst m hm)
  · rw [hhalf]
    norm_num [epsilon]
  · rw [hhalf]
    exact hgood

/-- Half a CPU and a limit of half a CPU, in all runs that are long enough for the factor
two: the rate stays inside its range. -/
theorem limitKept_twice :
    ∃ start s, (loneRun (1 / 2) half_nonneg).enter.limitCycle 1 (1 / 2) (loneCycle (1 / 2) 1) =
        some start ∧ start.limitCycle 1 (1 / 2) (loneCycle (1 / 2) 31) = some s ∧
      ∃ enough, ∀ n, enough ≤ n →
        (s.divisors 1 (1 / 2) (halfCycles n)).prod ≤ ((1 + 1) * (1 / 2)) ^ n ∧
          (1 / 2) ^ n ≤ (1 + 1) ^ n * (s.divisors 1 (1 / 2) (halfCycles n)).prod := by
  obtain ⟨start, s, hstart, hs, hmultiplies⟩ := multiplies_halfCycles
  obtain ⟨enough, hkept⟩ := limitKept (one_pos : (0 : ℚ) < 1)
  refine ⟨start, s, hstart, hs, enough, fun n hn => ?_⟩
  have hlength : (halfCycles n).length = n := by simp [halfCycles]
  obtain ⟨habove, hbelow⟩ := hkept 1 (1 / 2) (by norm_num) start s (loneCycle (1 / 2) 31)
    (halfCycles n) hs (hlength.ge.trans' hn)
  rw [hlength] at habove hbelow
  exact ⟨habove (hmultiplies n _ (by norm_num [epsilon])),
    hbelow (hmultiplies n _ (by norm_num [epsilon]))⟩

/-- Usages above the limit by the factor `c` bring the rate to its lower end, and usages
below it bring the rate to its upper end, in a number of cycles that depends on `c` alone. -/
theorem rateReachesEnd {ncpu : ℤ} {limit c : ℚ} (hlimit : 0 < limit) (hc : 1 ≤ c)
    {start s : LimitState} {first : CycleInput} {inputs : List CycleInput}
    (hfirst : start.limitCycle ncpu limit first = some s)
    (henough : 1 - epsilon ≤ epsilon * c ^ inputs.length) :
    (s.Multiplies ncpu limit (fun d _ => c * limit ≤ d) inputs →
      ∃ t, Runs.runPartial (LimitState.limitCycle ncpu limit) s inputs = some t ∧
        t.duty.workingrate = epsilon) ∧
    (s.Multiplies ncpu limit (fun d _ => c * d ≤ limit) inputs →
      ∃ t, Runs.runPartial (LimitState.limitCycle ncpu limit) s inputs = some t ∧
        t.duty.workingrate = 1 - epsilon) := by
  have hmem := LimitState.workingrate_mem hfirst
  constructor
  · intro h
    obtain ⟨t, ht, hrate, halong, hlen⟩ := h.refines
    refine ⟨t, ht, hrate.trans ?_⟩
    exact IntegralControl.run_eq_lo epsilon_pos.le epsilon_lt_one_sub.le hmem hlimit hc
      (hlen ▸ henough) (Runs.forall_of_along halong)
  · intro h
    obtain ⟨t, ht, hrate, halong, hlen⟩ := h.refines
    refine ⟨t, ht, hrate.trans ?_⟩
    exact IntegralControl.run_eq_hi epsilon_pos.le epsilon_lt_one_sub.le hmem hc
      (hlen ▸ henough) fun d hd =>
        ⟨LimitState.divisors_pos d hd, Runs.forall_of_along halong d hd⟩

/-- Half a CPU, at the start of a run with a limit that is smaller by the factor one million. -/
def throttledStart : Option LimitState :=
  (loneRun (1 / 2) (by norm_num)).enter.limitCycle 1 (1 / 2000000) (loneCycle (1 / 2) 1)

theorem rateReachesEnd_throttled :
    ∃ s t, throttledStart = some s ∧
      Runs.runPartial (LimitState.limitCycle 1 (1 / 2000000)) s
        [loneCycle (1 / 2) 31, loneCycle (1 / 2) 61] = some t ∧
      t.duty.workingrate = epsilon := by
  have hsome : throttledStart.isSome := by decide +kernel
  have habove : ∀ s ∈ throttledStart, s.Multiplies 1 (1 / 2000000)
      (fun d _ => 1000000 * (1 / 2000000) ≤ d) [loneCycle (1 / 2) 31, loneCycle (1 / 2) 61] := by
    decide +kernel
  obtain ⟨s, hs⟩ := Option.isSome_iff_exists.mp hsome
  obtain ⟨t, ht, hrate⟩ := (rateReachesEnd (by norm_num) (by norm_num) hs
    (by norm_num [epsilon])).1 (habove s hs)
  exact ⟨s, t, hs, ht, hrate⟩

end CpuLimit
