import Mathlib.Order.Defs.Unbundled

/-!
# One pass for a topmost element

A pass over a list keeps one candidate and replaces it only by an element above
it. For a strict order that is enough: whatever the order of the list, nothing in
it is above the last candidate.
-/
namespace CpuLimit.Library.Topmost

variable {α : Type*} (above : α → α → Prop) [DecidableRel above]

/-- The candidate after one more element. -/
def climb (candidate x : α) : α := if above x candidate then x else candidate

variable [IsStrictOrder α above]

/-- The pass only moves up, and leaves nothing above its result. -/
theorem foldl_climb (l : List α) (candidate : α) :
    (l.foldl (climb above) candidate = candidate ∨
        above (l.foldl (climb above) candidate) candidate) ∧
      l.foldl (climb above) candidate ∈ candidate :: l ∧
      ∀ x ∈ l, ¬ above x (l.foldl (climb above) candidate) := by
  induction l generalizing candidate with
  | nil => exact ⟨Or.inl rfl, by simp, by simp⟩
  | cons x l ih =>
    rw [List.foldl_cons]
    by_cases hx : above x candidate
    · obtain ⟨hup, hmem, htop⟩ := ih x
      simp only [climb, if_pos hx]
      have hnot : ¬ above x (l.foldl (climb above) x) := by
        intro h
        rcases hup with he | hup
        · rw [he] at h
          exact irrefl_of above x h
        · exact irrefl_of above x (trans_of above h hup)
      refine ⟨Or.inr ?_, List.mem_cons_of_mem _ hmem, List.forall_mem_cons.mpr ⟨hnot, htop⟩⟩
      rcases hup with he | hup
      · exact he.symm ▸ hx
      · exact trans_of above hup hx
    · obtain ⟨hup, hmem, htop⟩ := ih candidate
      simp only [climb, if_neg hx]
      have hnot : ¬ above x (l.foldl (climb above) candidate) := by
        intro h
        rcases hup with he | hup
        · rw [he] at h
          exact hx h
        · exact hx (trans_of above h hup)
      refine ⟨hup, ?_, List.forall_mem_cons.mpr ⟨hnot, htop⟩⟩
      rcases List.mem_cons.mp hmem with he | hmem
      · rw [he]; simp
      · exact List.mem_cons_of_mem _ (List.mem_cons_of_mem _ hmem)

end CpuLimit.Library.Topmost
