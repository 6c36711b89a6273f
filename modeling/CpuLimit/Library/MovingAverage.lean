import Mathlib.Algebra.BigOperators.Group.List.Basic
import Mathlib.Algebra.Order.Field.Basic
import Mathlib.Tactic.Linarith
import Mathlib.Tactic.Ring

/-!
# Exponential moving averages

One step moves an estimate toward a sample by a fixed weight `a`. The estimate
of a series starts at its first sample. With `0 ≤ a ≤ 1` a step stays between
the old estimate and the sample, so every order bound that holds of both holds
of the result.
-/
namespace CpuLimit.Library.MovingAverage

variable {K : Type*} [Field K]

/-- Move the estimate `e` toward the sample `s` by the weight `a`. -/
def step (a e s : K) : K := (1 - a) * e + a * s

/-- A sample that equals the estimate confirms it. -/
theorem step_self (a e : K) : step a e e = e := by
  rw [step]
  ring

/-- The estimate after a series of samples, from an existing estimate. -/
def follow (a e : K) (samples : List K) : K := samples.foldl (step a) e

/-- The estimate of a series of its own; there is none before the first sample. -/
def estimate (a : K) : List K → Option K
  | [] => none
  | s :: samples => some (follow a s samples)

@[simp] theorem follow_cons (a e s : K) (samples : List K) :
    follow a e (s :: samples) = follow a (step a e s) samples := rfl

/-- The estimates after each of the samples. -/
def estimates (a e : K) : List K → List K
  | [] => []
  | s :: samples => step a e s :: estimates a (step a e s) samples

/-- The sums of samples and estimates differ by the change of the estimate. -/
theorem mul_sum_sub (a e : K) (samples : List K) :
    a * (samples.sum - (estimates a e samples).sum) = (1 - a) * (follow a e samples - e) := by
  induction samples generalizing e with
  | nil => simp [estimates, follow]
  | cons s samples ih =>
    rw [estimates, List.sum_cons, List.sum_cons, follow_cons]
    calc a * (s + samples.sum - (step a e s + (estimates a (step a e s) samples).sum))
        = a * (s - step a e s) +
            a * (samples.sum - (estimates a (step a e s) samples).sum) := by ring
      _ = (1 - a) * (step a e s - e) + (1 - a) * (follow a (step a e s) samples - step a e s) := by
          rw [ih, step]
          ring
      _ = (1 - a) * (follow a (step a e s) samples - e) := by ring

variable [LinearOrder K] [IsStrictOrderedRing K] {a : K}

theorem le_step (h0 : 0 ≤ a) (h1 : a ≤ 1) {b e s : K} (he : b ≤ e) (hs : b ≤ s) :
    b ≤ step a e s := by
  have hold : (1 - a) * b ≤ (1 - a) * e := mul_le_mul_of_nonneg_left he (by linarith)
  have hnew : a * b ≤ a * s := mul_le_mul_of_nonneg_left hs h0
  unfold step
  linarith

theorem step_le (h0 : 0 ≤ a) (h1 : a ≤ 1) {b e s : K} (he : e ≤ b) (hs : s ≤ b) :
    step a e s ≤ b := by
  have hold : (1 - a) * e ≤ (1 - a) * b := mul_le_mul_of_nonneg_left he (by linarith)
  have hnew : a * s ≤ a * b := mul_le_mul_of_nonneg_left hs h0
  unfold step
  linarith

theorem follow_mem (h0 : 0 ≤ a) (h1 : a ≤ 1) {lo hi e : K} (he : lo ≤ e ∧ e ≤ hi)
    {samples : List K} (hs : ∀ s ∈ samples, lo ≤ s ∧ s ≤ hi) :
    lo ≤ follow a e samples ∧ follow a e samples ≤ hi := by
  induction samples generalizing e with
  | nil => exact he
  | cons s samples ih =>
    obtain ⟨hfirst, hrest⟩ := List.forall_mem_cons.mp hs
    exact ih ⟨le_step h0 h1 he.1 hfirst.1, step_le h0 h1 he.2 hfirst.2⟩ hrest

/-- So the sums stay close, however many samples there are. -/
theorem abs_sum_sub_le (h0 : 0 < a) (h1 : a ≤ 1) {lo hi e : K} (he : lo ≤ e ∧ e ≤ hi)
    {samples : List K} (hs : ∀ s ∈ samples, lo ≤ s ∧ s ≤ hi) :
    |samples.sum - (estimates a e samples).sum| ≤ (1 - a) / a * (hi - lo) := by
  have hend := follow_mem h0.le h1 he hs
  have hchange : |follow a e samples - e| ≤ hi - lo := by
    rw [abs_le]
    constructor <;> linarith [he.1, he.2, hend.1, hend.2]
  have hsum : samples.sum - (estimates a e samples).sum =
      (1 - a) / a * (follow a e samples - e) := by
    rw [div_mul_eq_mul_div, eq_div_iff h0.ne', mul_comm]
    exact mul_sum_sub a e samples
  have hnonneg : 0 ≤ (1 - a) / a := div_nonneg (by linarith) h0.le
  rw [hsum, abs_mul, abs_of_nonneg hnonneg]
  exact mul_le_mul_of_nonneg_left hchange hnonneg

end CpuLimit.Library.MovingAverage
