import CpuLimit.Library.Runs
import Mathlib.Algebra.Order.BigOperators.GroupWithZero.List
import Mathlib.Algebra.Order.Ring.Defs

/-!
# Runs that contract

If every input shrinks a distance by a factor of its own, a run shrinks it by the product of
the factors.
-/
namespace CpuLimit.Library.Contraction

open Runs

variable {σ ι K : Type*} [CommRing K] [PartialOrder K] [IsOrderedRing K] {step : σ → ι → σ}
  {inv : σ → Prop} {factor : ι → K}

/-- The induction is over the inputs. -/
theorem dist_run_le (dist : σ → K) {inputs : List ι} (hfactor : ∀ i ∈ inputs, 0 ≤ factor i)
    (hinv : ∀ s i, inv s → inv (step s i))
    (hstep : ∀ s, ∀ i ∈ inputs, inv s → dist (step s i) ≤ factor i * dist s) {s : σ}
    (hs : inv s) : dist (run step s inputs) ≤ (inputs.map factor).prod * dist s := by
  induction inputs generalizing s with
  | nil => simp
  | cons i inputs ih =>
    obtain ⟨-, hrest⟩ := List.forall_mem_cons.mp hfactor
    have hfirst := hstep s i (by simp) hs
    have hprod : 0 ≤ (inputs.map factor).prod :=
      List.prod_nonneg fun f hf => by
        obtain ⟨j, hj, rfl⟩ := List.mem_map.mp hf
        exact hrest j hj
    rw [run_cons, List.map_cons, List.prod_cons]
    calc dist (run step (step s i) inputs)
        ≤ (inputs.map factor).prod * dist (step s i) :=
          ih hrest (fun s j hj => hstep s j (List.mem_cons_of_mem i hj)) (hinv s i hs)
      _ ≤ (inputs.map factor).prod * (factor i * dist s) :=
          mul_le_mul_of_nonneg_left hfirst hprod
      _ = factor i * (inputs.map factor).prod * dist s := by
          rw [← mul_assoc, mul_comm (inputs.map factor).prod]

end CpuLimit.Library.Contraction
