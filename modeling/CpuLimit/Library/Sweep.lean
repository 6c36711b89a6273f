import Mathlib.Data.List.InsertIdx

/-!
# Sweeping a list with a cursor

A loop visits the elements of a list from a position on and removes some of them
on the way: after a removal the next element stands at the position of the
removed one, otherwise the position moves on. The sweep is a filter, and at every
point of it the elements before the position are done with.
-/
namespace CpuLimit.Library.Sweep

variable {α : Type*} {l : List α} {node : ℕ} {x y : α}

theorem drop_eq_cons (h : l[node]? = some x) : l.drop node = x :: l.drop (node + 1) := by
  obtain ⟨hlt, rfl⟩ := List.getElem?_eq_some_iff.mp h
  exact List.drop_eq_getElem_cons hlt

theorem take_succ (h : l[node]? = some x) : l.take (node + 1) = l.take node ++ [x] := by
  obtain ⟨hlt, rfl⟩ := List.getElem?_eq_some_iff.mp h
  exact List.take_succ_eq_append_getElem hlt

/-- The element after a removed one takes its position. -/
theorem drop_eraseIdx (h : l[node]? = some x) :
    (l.eraseIdx node).drop node = l.drop (node + 1) := by
  obtain ⟨hlt, -⟩ := List.getElem?_eq_some_iff.mp h
  rw [List.eraseIdx_eq_take_drop_succ]
  exact List.drop_left' (List.length_take_of_le (Nat.le_of_lt hlt))

theorem take_eraseIdx (l : List α) (node : ℕ) : (l.eraseIdx node).take node = l.take node :=
  List.take_eraseIdx_eq_take_of_le l node node (Nat.le_refl node)

theorem length_eraseIdx (h : l[node]? = some x) : (l.eraseIdx node).length + 1 = l.length := by
  obtain ⟨hlt, -⟩ := List.getElem?_eq_some_iff.mp h
  rw [List.length_eraseIdx_of_lt hlt]
  omega

theorem mem_drop_succ (h : l[node]? = some x) (hy : y ∈ l.drop node) (hne : y ≠ x) :
    y ∈ l.drop (node + 1) := by
  rw [drop_eq_cons h] at hy
  exact (List.mem_cons.mp hy).resolve_left hne

/-- Visit `left` elements from position `node` on and remove those that `keep` refuses. -/
def sweep (keep : α → Bool) : ℕ → ℕ → List α → List α
  | 0, _, l => l
  | left + 1, node, l =>
    match l[node]? with
    | none => l
    | some x =>
      if keep x then sweep keep left (node + 1) l else sweep keep left node (l.eraseIdx node)

/-- A sweep to the end is a filter behind the position. -/
theorem sweep_eq (keep : α → Bool) {left : ℕ} (h : l.length ≤ node + left) :
    sweep keep left node l = l.take node ++ (l.drop node).filter keep := by
  have hend : ∀ {l : List α} {node : ℕ}, l.length ≤ node →
      l = l.take node ++ (l.drop node).filter keep := by
    intro l node hlen
    rw [List.take_of_length_le hlen, List.drop_of_length_le hlen, List.filter_nil, List.append_nil]
  induction left generalizing node l with
  | zero => exact hend h
  | succ left ih =>
    cases hx : l[node]? with
    | none =>
      rw [sweep, hx]
      exact hend (List.getElem?_eq_none_iff.mp hx)
    | some x =>
      rw [sweep, hx, drop_eq_cons hx]
      dsimp only
      by_cases hk : keep x = true
      · rw [if_pos hk, ih (by omega), take_succ hx, List.append_assoc, List.singleton_append,
          List.filter_cons_of_pos hk]
      · have hlen := length_eraseIdx hx
        rw [if_neg hk, ih (by omega), take_eraseIdx, drop_eraseIdx hx, List.filter_cons_of_neg hk]

end CpuLimit.Library.Sweep
