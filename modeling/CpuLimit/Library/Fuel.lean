import Mathlib.Data.Nat.Basic

/-!
# Loops with fuel

A loop that may not end takes fuel and is `none` when that runs out. It returns
when every sufficient amount of fuel gives the same result.
-/
namespace CpuLimit.Library.Fuel

variable {α β : Type*} {loop : ℕ → α → Option β} {x y : α} {b : β}

/-- With enough fuel the loop returns `b` from `x`. -/
def Returns (loop : ℕ → α → Option β) (x : α) (b : β) : Prop :=
  ∃ enough, ∀ fuel, enough ≤ fuel → loop fuel x = some b

theorem Returns.stop (h : ∀ fuel, loop (fuel + 1) x = some b) : Returns loop x b := by
  refine ⟨1, fun fuel hfuel => ?_⟩
  obtain ⟨rest, rfl⟩ := Nat.exists_eq_add_of_le' hfuel
  exact h rest

theorem Returns.step (h : ∀ fuel, loop (fuel + 1) x = loop fuel y) (hy : Returns loop y b) :
    Returns loop x b := by
  obtain ⟨enough, hy⟩ := hy
  refine ⟨enough + 1, fun fuel hfuel => ?_⟩
  obtain ⟨rest, rfl⟩ := Nat.exists_eq_add_of_le' (Nat.le_of_add_left_le hfuel)
  rw [h]
  exact hy rest (Nat.le_of_succ_le_succ hfuel)

theorem Returns.unique {b' : β} (h : Returns loop x b) (h' : Returns loop x b') : b = b' := by
  obtain ⟨n, hn⟩ := h
  obtain ⟨m, hm⟩ := h'
  have hb := hn (max n m) (le_max_left n m)
  rw [hm (max n m) (le_max_right n m)] at hb
  exact (Option.some.inj hb).symm

/-- Loops that agree on every amount of fuel return alike. -/
theorem Returns.congr {loop' : ℕ → α → Option β} (h : ∀ fuel, loop' fuel x = loop fuel x)
    (hx : Returns loop x b) : Returns loop' x b := by
  obtain ⟨enough, hx⟩ := hx
  exact ⟨enough, fun fuel hfuel => (h fuel).trans (hx fuel hfuel)⟩

/-- Finitely many runs can share their fuel. -/
theorem Returns.forall_mem {f : α → β} {l : List α} (h : ∀ x ∈ l, Returns loop x (f x)) :
    ∃ enough, ∀ fuel, enough ≤ fuel → ∀ x ∈ l, loop fuel x = some (f x) := by
  induction l with
  | nil => exact ⟨0, by simp⟩
  | cons x l ih =>
    rw [List.forall_mem_cons] at h
    obtain ⟨n, hn⟩ := h.1
    obtain ⟨m, hm⟩ := ih h.2
    refine ⟨max n m, fun fuel hfuel => List.forall_mem_cons.mpr ⟨?_, ?_⟩⟩
    · exact hn fuel (le_trans (le_max_left n m) hfuel)
    · exact hm fuel (le_trans (le_max_right n m) hfuel)

end CpuLimit.Library.Fuel
