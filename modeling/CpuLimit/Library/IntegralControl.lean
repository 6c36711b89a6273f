import CpuLimit.Library.Runs
import Mathlib.Algebra.Order.Archimedean.Basic
import Mathlib.Algebra.Order.BigOperators.GroupWithZero.List
import Mathlib.Tactic.Linarith
import Mathlib.Tactic.Ring

/-!
# Multiplicative integral control

A rate is multiplied in every step by the quotient of a target and a measurement, and then
clamped to an interval. Apart from the clamping the rate is the first one times the product
of these quotients. So a rate that stays in its interval forces the measurements to be the
target in the geometric mean, whatever is measured.
-/
namespace CpuLimit.Library.IntegralControl

open Runs

variable {K : Type*} [Field K] [LinearOrder K] {lo hi target w : K} {ys : List K}

/-- One step of the rate `w` after the measurement `y`. -/
def step (lo hi target w y : K) : K := max (min (w * target / y) hi) lo

theorem le_step (lo hi target w y : K) : lo ≤ step lo hi target w y := le_max_right _ _

theorem step_le (h : lo ≤ hi) (target w y : K) : step lo hi target w y ≤ hi :=
  max_le (min_le_right _ _) h

theorem run_mem (h : lo ≤ hi) (hw : lo ≤ w ∧ w ≤ hi) (ys : List K) :
    lo ≤ run (step lo hi target) w ys ∧ run (step lo hi target) w ys ≤ hi := by
  induction ys generalizing w with
  | nil => exact hw
  | cons y ys ih => exact ih ⟨le_step _ _ _ _ _, step_le h _ _ _⟩

variable [IsStrictOrderedRing K]

/-- Away from the floor the step is at most the adjustment. -/
theorem mul_step_le {y : K} (hy : 0 < y) (h : lo < step lo hi target w y) :
    y * step lo hi target w y ≤ w * target := by
  have hle : step lo hi target w y ≤ w * target / y := by
    rcases lt_max_iff.mp h with hmin | hlo
    · exact max_le (min_le_left _ _) (hmin.le.trans (min_le_left _ _))
    · exact absurd hlo (lt_irrefl _)
  calc y * step lo hi target w y ≤ y * (w * target / y) := mul_le_mul_of_nonneg_left hle hy.le
    _ = w * target := mul_div_cancel₀ _ hy.ne'

/-- Away from the ceiling it is at least the adjustment. -/
theorem le_mul_step {y : K} (hy : 0 < y) (h : step lo hi target w y < hi) :
    w * target ≤ y * step lo hi target w y := by
  have hmin : min (w * target / y) hi < hi := (le_max_left _ _).trans_lt h
  have hle : w * target / y ≤ step lo hi target w y := by
    rcases min_lt_iff.mp hmin with hlt | hhi
    · exact (le_min le_rfl hlt.le).trans (le_max_left _ _)
    · exact absurd hhi (lt_irrefl _)
  calc w * target = y * (w * target / y) := (mul_div_cancel₀ _ hy.ne').symm
    _ ≤ y * step lo hi target w y := mul_le_mul_of_nonneg_left hle hy.le

/-! ## Whole runs -/

/-- The product of the measurements, as long as no step ends at the floor. The induction is
over the measurements. -/
theorem prod_mul_run_le (htarget : 0 ≤ target) (hpos : ∀ y ∈ ys, 0 < y)
    (h : Along (step lo hi target) (fun w y => lo < step lo hi target w y) w ys) :
    ys.prod * run (step lo hi target) w ys ≤ w * target ^ ys.length := by
  induction ys generalizing w with
  | nil => simp
  | cons y ys ih =>
    obtain ⟨hy, hys⟩ := List.forall_mem_cons.mp hpos
    have hfirst := mul_step_le hy h.1
    have hrest := ih hys h.2
    rw [List.prod_cons, run_cons, List.length_cons, pow_succ]
    calc y * ys.prod * run (step lo hi target) (step lo hi target w y) ys
        = y * (ys.prod * run (step lo hi target) (step lo hi target w y) ys) := mul_assoc _ _ _
      _ ≤ y * (step lo hi target w y * target ^ ys.length) :=
          mul_le_mul_of_nonneg_left hrest hy.le
      _ = y * step lo hi target w y * target ^ ys.length := (mul_assoc _ _ _).symm
      _ ≤ w * target * target ^ ys.length :=
          mul_le_mul_of_nonneg_right hfirst (pow_nonneg htarget _)
      _ = w * (target ^ ys.length * target) := by ring

/-- The same with the ceiling. -/
theorem le_prod_mul_run (htarget : 0 ≤ target) (hpos : ∀ y ∈ ys, 0 < y)
    (h : Along (step lo hi target) (fun w y => step lo hi target w y < hi) w ys) :
    w * target ^ ys.length ≤ ys.prod * run (step lo hi target) w ys := by
  induction ys generalizing w with
  | nil => simp
  | cons y ys ih =>
    obtain ⟨hy, hys⟩ := List.forall_mem_cons.mp hpos
    have hfirst := le_mul_step hy h.1
    have hrest := ih hys h.2
    rw [List.prod_cons, run_cons, List.length_cons, pow_succ]
    calc w * (target ^ ys.length * target)
        = w * target * target ^ ys.length := by ring
      _ ≤ y * step lo hi target w y * target ^ ys.length :=
          mul_le_mul_of_nonneg_right hfirst (pow_nonneg htarget _)
      _ = y * (step lo hi target w y * target ^ ys.length) := mul_assoc _ _ _
      _ ≤ y * (ys.prod * run (step lo hi target) (step lo hi target w y) ys) :=
          mul_le_mul_of_nonneg_left hrest hy.le
      _ = y * ys.prod * run (step lo hi target) (step lo hi target w y) ys :=
          (mul_assoc _ _ _).symm

/-- A number of steps after which every factor above one outweighs the whole interval. -/
theorem exists_enough [Archimedean K] (hlo : 0 < lo) (hi : K) {c : K} (hc : 1 < c) :
    ∃ enough, ∀ n, enough ≤ n → hi ≤ lo * c ^ n := by
  obtain ⟨enough, henough⟩ := pow_unbounded_of_one_lt (hi / lo) hc
  refine ⟨enough, fun n hn => ?_⟩
  have hpow : c ^ enough ≤ c ^ n := pow_le_pow_right₀ hc.le hn
  rw [mul_comm, ← div_le_iff₀ hlo]
  exact henough.le.trans hpow

/-- The geometric mean of the measurements is not above the target by the factor `c`, in
all runs that are long enough for it and do not touch the floor. -/
theorem prod_le (hlo : 0 < lo) (hle : lo ≤ hi) (htarget : 0 ≤ target) {c : K}
    (hw : lo ≤ w ∧ w ≤ hi) (hpos : ∀ y ∈ ys, 0 < y) (hc : hi ≤ lo * c ^ ys.length)
    (h : Along (step lo hi target) (fun w y => lo < step lo hi target w y) w ys) :
    ys.prod ≤ (c * target) ^ ys.length := by
  have hprod := prod_mul_run_le htarget hpos h
  have hnonneg : 0 ≤ ys.prod := List.prod_nonneg fun y hy => (hpos y hy).le
  refine le_of_mul_le_mul_left ?_ hlo
  calc lo * ys.prod = ys.prod * lo := mul_comm _ _
    _ ≤ ys.prod * run (step lo hi target) w ys :=
        mul_le_mul_of_nonneg_left (run_mem hle hw ys).1 hnonneg
    _ ≤ w * target ^ ys.length := hprod
    _ ≤ lo * c ^ ys.length * target ^ ys.length :=
        mul_le_mul_of_nonneg_right (hw.2.trans hc) (pow_nonneg htarget _)
    _ = lo * (c * target) ^ ys.length := by rw [mul_pow, mul_assoc]

/-- Nor is it below the target, in those that do not touch the ceiling. -/
theorem le_prod (hlo : 0 < lo) (hle : lo ≤ hi) (htarget : 0 ≤ target) {c : K}
    (hw : lo ≤ w ∧ w ≤ hi) (hpos : ∀ y ∈ ys, 0 < y) (hc : hi ≤ lo * c ^ ys.length)
    (h : Along (step lo hi target) (fun w y => step lo hi target w y < hi) w ys) :
    target ^ ys.length ≤ c ^ ys.length * ys.prod := by
  have hprod := le_prod_mul_run htarget hpos h
  have hnonneg : 0 ≤ ys.prod := List.prod_nonneg fun y hy => (hpos y hy).le
  refine le_of_mul_le_mul_left ?_ hlo
  calc lo * target ^ ys.length
      ≤ w * target ^ ys.length := mul_le_mul_of_nonneg_right hw.1 (pow_nonneg htarget _)
    _ ≤ ys.prod * run (step lo hi target) w ys := hprod
    _ ≤ ys.prod * (lo * c ^ ys.length) :=
        mul_le_mul_of_nonneg_left ((run_mem hle hw ys).2.trans hc) hnonneg
    _ = lo * (c ^ ys.length * ys.prod) := by ring

/-! ## Measurements on one side of the target -/

/-- Measurements above the target by the factor `c` lower the rate by it, down to the
floor. -/
theorem run_le_of_above (hlo : 0 ≤ lo) (hw : 0 ≤ w) (htarget : 0 < target) {c : K} (hc : 1 ≤ c)
    (h : ∀ y ∈ ys, c * target ≤ y) :
    run (step lo hi target) w ys ≤ max (w / c ^ ys.length) lo := by
  have hc0 : 0 < c := zero_lt_one.trans_le hc
  induction ys generalizing w with
  | nil => simp
  | cons y ys ih =>
    obtain ⟨hy, hys⟩ := List.forall_mem_cons.mp h
    have hquotient : w * target / y ≤ w / c := by
      rw [div_le_div_iff₀ ((mul_pos hc0 htarget).trans_le hy) hc0, mul_assoc]
      exact mul_le_mul_of_nonneg_left (by rwa [mul_comm]) hw
    have hfirst : step lo hi target w y ≤ max (w / c) lo :=
      max_le_max_right lo ((min_le_left _ _).trans hquotient)
    have hrest := ih (hlo.trans (le_step lo hi target w y)) hys
    have hpow : 0 < c ^ ys.length := pow_pos hc0 _
    rw [run_cons, List.length_cons]
    refine hrest.trans (max_le ?_ (le_max_right _ _))
    calc step lo hi target w y / c ^ ys.length ≤ max (w / c) lo / c ^ ys.length :=
          div_le_div_of_nonneg_right hfirst hpow.le
      _ = max (w / c / c ^ ys.length) (lo / c ^ ys.length) := max_div_div_right hpow.le _ _ |>.symm
      _ ≤ max (w / c ^ (ys.length + 1)) lo := by
          refine max_le_max (le_of_eq ?_) (div_le_self hlo (one_le_pow₀ hc))
          rw [div_div, pow_succ, mul_comm]

/-- Measurements below it raise the rate, up to the ceiling. -/
theorem le_run_of_below (hhi : 0 ≤ hi) (hlo : 0 ≤ lo) (hw : 0 ≤ w) {c : K} (hc : 1 ≤ c)
    (h : ∀ y ∈ ys, 0 < y ∧ c * y ≤ target) :
    min (w * c ^ ys.length) hi ≤ run (step lo hi target) w ys := by
  have hc0 : 0 < c := zero_lt_one.trans_le hc
  induction ys generalizing w with
  | nil => simp
  | cons y ys ih =>
    obtain ⟨⟨hpos, hy⟩, hys⟩ := List.forall_mem_cons.mp h
    have hquotient : w * c ≤ w * target / y := by
      rw [le_div_iff₀ hpos, mul_assoc]
      exact mul_le_mul_of_nonneg_left hy hw
    have hfirst : min (w * c) hi ≤ step lo hi target w y :=
      (min_le_min_right hi hquotient).trans (le_max_left _ _)
    have hrest := ih (hlo.trans (le_step lo hi target w y)) hys
    have hpow : 0 < c ^ ys.length := pow_pos hc0 _
    rw [run_cons, List.length_cons]
    refine (le_min ?_ (min_le_right _ _)).trans hrest
    calc min (w * c ^ (ys.length + 1)) hi
        ≤ min (w * c * c ^ ys.length) (hi * c ^ ys.length) := by
          refine min_le_min (le_of_eq ?_) (le_mul_of_one_le_right hhi (one_le_pow₀ hc))
          rw [pow_succ]
          ring
      _ = min (w * c) hi * c ^ ys.length := (min_mul_of_nonneg _ _ hpow.le).symm
      _ ≤ step lo hi target w y * c ^ ys.length := mul_le_mul_of_nonneg_right hfirst hpow.le

/-- After enough of them the rate is at the floor. -/
theorem run_eq_lo (hlo : 0 ≤ lo) (hle : lo ≤ hi) (hw : lo ≤ w ∧ w ≤ hi) (htarget : 0 < target)
    {c : K} (hc : 1 ≤ c) (henough : hi ≤ lo * c ^ ys.length) (h : ∀ y ∈ ys, c * target ≤ y) :
    run (step lo hi target) w ys = lo := by
  have hpow : 0 < c ^ ys.length := pow_pos (zero_lt_one.trans_le hc) _
  refine le_antisymm ?_ (run_mem hle hw ys).1
  refine (run_le_of_above hlo (hlo.trans hw.1) htarget hc h).trans (max_le ?_ le_rfl)
  rw [div_le_iff₀ hpow]
  exact hw.2.trans henough

theorem run_eq_hi (hlo : 0 ≤ lo) (hle : lo ≤ hi) (hw : lo ≤ w ∧ w ≤ hi)
    {c : K} (hc : 1 ≤ c) (henough : hi ≤ lo * c ^ ys.length)
    (h : ∀ y ∈ ys, 0 < y ∧ c * y ≤ target) :
    run (step lo hi target) w ys = hi := by
  have hpow : 0 ≤ c ^ ys.length := pow_nonneg (zero_le_one.trans hc) _
  refine le_antisymm (run_mem hle hw ys).2 ?_
  refine (le_min ?_ le_rfl).trans (le_run_of_below (hlo.trans hle) hlo (hlo.trans hw.1) hc h)
  exact henough.trans (mul_le_mul_of_nonneg_right hw.1 hpow)

end CpuLimit.Library.IntegralControl
