import CpuLimit.Library.Outcome

/-!
# Cursors that select

A loop that visits the elements of a list one by one and leaves at the first element that
it selects, or at the end of the list. Called again and again it yields the selected
elements in order.
-/
namespace CpuLimit.Library.Cursor

open Outcome

variable {φ α β σ : Type}

/-- In a state that has `rest` still to visit, `body` visits the first element, and goes on
or leaves with what is selected there. At the end it leaves without an element. -/
structure Visits (body : σ → Outcome φ (σ ⊕ (Option β × σ))) (select : α → Option β)
    (before : List α → σ → Prop) (ended : σ → Prop) : Prop where
  stop : ∀ s, before [] s → ∃ t, ended t ∧ body s = .returned (.inr (none, t))
  turn : ∀ x rest s, before (x :: rest) s → ∃ t, before rest t ∧
    body s = .returned (match select x with
      | none => .inl t
      | some b => .inr (some b, t))

/-- What is left to be yielded: the selected elements, or nothing after the end. -/
def Left (select : α → Option β) (before : List α → σ → Prop) (ended : σ → Prop) (l : List β)
    (s : σ) : Prop :=
  (∃ rest, before rest s ∧ l = rest.filterMap select) ∨ l = [] ∧ ended s

variable {body : σ → Outcome φ (σ ⊕ (Option β × σ))} {select : α → Option β}
  {before : List α → σ → Prop} {ended : σ → Prop}

/-- A loop that adds what is left to what it has, element by element. The induction is over
what is left. -/
theorem iterate_collects {left : List β → σ → Prop}
    {body : List β × σ → Outcome φ ((List β × σ) ⊕ (List β × σ))}
    (hstop : ∀ found s, left [] s → ∃ t, left [] t ∧ body (found, s) = .returned (.inr (found, t)))
    (hturn : ∀ x l found s, left (x :: l) s →
      ∃ t, left l t ∧ body (found, s) = .returned (.inl (found ++ [x], t)))
    {l : List β} {fuel : ℕ} (hfuel : l.length < fuel) {s : σ} (hs : left l s) :
    ∃ t, Outcome.iterate body fuel ([], s) = .returned (l, t) ∧ left [] t := by
  have hloop : ∀ found, ∃ t, Outcome.iterate body fuel (found, s) = .returned (found ++ l, t) ∧
      left [] t := by
    induction l generalizing s fuel with
    | nil =>
      intro found
      obtain ⟨t, ht, hbody⟩ := hstop found s hs
      obtain ⟨fuel, rfl⟩ := Nat.exists_eq_add_of_lt hfuel
      refine ⟨t, ?_, ht⟩
      rw [Outcome.iterate, hbody, List.append_nil]
      rfl
    | cons x l ih =>
      intro found
      obtain ⟨t, ht, hbody⟩ := hturn x l found s hs
      cases fuel with
      | zero => exact absurd hfuel (Nat.not_lt_zero _)
      | succ fuel =>
        obtain ⟨end', hiterate, hend⟩ := ih (Nat.lt_of_succ_lt_succ hfuel) ht (found ++ [x])
        refine ⟨end', ?_, hend⟩
        rw [Outcome.iterate, hbody]
        rw [List.append_assoc, List.singleton_append] at hiterate
        exact hiterate
  exact hloop []

/-- A position in an array with something behind it. -/
theorem getElem?_of_drop {l rest : List α} {i : ℕ} {x : α} (h : l.drop i = x :: rest) :
    l[i]? = some x ∧ l.drop (i + 1) = rest := by
  have hhead := congrArg List.head? h
  have htail := congrArg List.tail h
  rw [List.head?_drop] at hhead
  rw [List.tail_drop] at htail
  exact ⟨hhead, htail⟩

/-- The loop yields the first selected element and is then behind it. The induction is over
what is still to be visited. -/
theorem Visits.iterate (h : Visits body select before ended) {rest : List α} {s : σ}
    (hs : before rest s) {fuel : ℕ} (hfuel : rest.length < fuel) :
    ∃ t, Outcome.iterate body fuel s = .returned ((rest.filterMap select).head?, t) ∧
      Left select before ended (rest.filterMap select).tail t := by
  induction rest generalizing s fuel with
  | nil =>
    obtain ⟨t, ht, hbody⟩ := h.stop s hs
    obtain ⟨fuel, rfl⟩ := Nat.exists_eq_add_of_lt hfuel
    refine ⟨t, ?_, Or.inr ⟨rfl, ht⟩⟩
    rw [Outcome.iterate, hbody]
    rfl
  | cons x rest ih =>
    obtain ⟨t, ht, hbody⟩ := h.turn x rest s hs
    cases fuel with
    | zero => exact absurd hfuel (Nat.not_lt_zero _)
    | succ fuel =>
      rw [Outcome.iterate, hbody]
      cases hx : select x with
      | none =>
        rw [List.filterMap_cons_none hx]
        exact ih ht (Nat.lt_of_succ_lt_succ hfuel)
      | some b =>
        rw [List.filterMap_cons_some hx]
        exact ⟨t, rfl, Or.inl ⟨rest, ht, rfl⟩⟩

end CpuLimit.Library.Cursor
