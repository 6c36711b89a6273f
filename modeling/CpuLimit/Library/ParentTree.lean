import Mathlib.Logic.Relation
import Mathlib.Order.WellFoundedSet

/-!
# Trees given by parent links

A forest as a partial parent function, and what a change of the links can do to
the ancestors of a node. Nodes without a parent are roots. The walk toward the
root need not end; it does in a finite forest without cycles, where induction
along the links is available.
-/
namespace CpuLimit.Library.ParentTree

variable {α : Type*}

/-- `a` is reached from `c` by one or more parent links. -/
def Ancestor (parent : α → Option α) (a c : α) : Prop :=
  Relation.TransGen (fun x y => parent x = some y) c a

variable {parent parent' : α → Option α} {a b c : α}

theorem Ancestor.single (h : parent c = some a) : Ancestor parent a c :=
  Relation.TransGen.single h

theorem Ancestor.head (h : parent c = some b) (hb : Ancestor parent a b) : Ancestor parent a c :=
  Relation.TransGen.head h hb

/-- More links make more ancestors. -/
theorem Ancestor.mono (h : ∀ x y, parent x = some y → parent' x = some y)
    (ha : Ancestor parent a c) : Ancestor parent' a c :=
  Relation.TransGen.mono h _ _ ha

theorem ancestor_iff :
    Ancestor parent a c ↔ ∃ b, parent c = some b ∧ (b = a ∨ Ancestor parent a b) := by
  constructor
  · intro h
    rcases Relation.TransGen.head'_iff.mp h with ⟨b, hb, hba⟩
    rcases Relation.reflTransGen_iff_eq_or_transGen.mp hba with he | ht
    · exact ⟨b, hb, Or.inl he.symm⟩
    · exact ⟨b, hb, Or.inr ht⟩
  · rintro ⟨b, hb, rfl | h⟩
    · exact Ancestor.single hb
    · exact Ancestor.head hb h

/-- A root has no ancestors. -/
theorem not_ancestor_of_root (h : parent c = none) : ¬ Ancestor parent a c := by
  intro hc
  obtain ⟨b, hb, -⟩ := ancestor_iff.mp hc
  rw [h] at hb
  cases hb

/-- If the links of the nodes in `node` are old ones inside `node`, or lead to a
root, then the nodes in `node` get no new ancestors except roots. -/
theorem Ancestor.of_links (node root : α → Prop)
    (hlink : ∀ x y, node x → parent' x = some y → root y ∨ (parent x = some y ∧ node y))
    (hroot : ∀ x, root x → parent' x = none) (h : Ancestor parent' a c) (hc : node c) :
    root a ∨ Ancestor parent a c := by
  induction h using Relation.TransGen.head_induction_on with
  | single hx =>
    rcases hlink _ _ hc hx with hr | ⟨hold, -⟩
    · exact Or.inl hr
    · exact Or.inr (Ancestor.single hold)
  | head hx hrest ih =>
    rcases hlink _ _ hc hx with hr | ⟨hold, hnode⟩
    · exact absurd hrest (not_ancestor_of_root (hroot _ hr))
    · exact (ih hnode).imp_right (Ancestor.head hold)

/-- Links that lead down an order make no cycle. -/
theorem acyclic_of_lt [Preorder α] (h : ∀ x y, parent x = some y → y < x) (x : α) :
    ¬ Ancestor parent x x := by
  have hlt : ∀ {a c}, Ancestor parent a c → a < c := by
    intro a c hac
    induction hac with
    | single hx => exact h _ _ hx
    | tail _ hx ih => exact (h _ _ hx).trans ih
  exact fun hx => lt_irrefl x (hlt hx)

/-- Without cycles and with finitely many nodes that have a parent, every walk
toward the root ends. -/
theorem wellFounded_of_acyclic (hfinite : {x | parent x ≠ none}.Finite)
    (hacyclic : ∀ x, ¬ Ancestor parent x x) : WellFounded fun y x => parent x = some y := by
  have : IsStrictOrder α fun y x => Ancestor parent y x :=
    { irrefl := hacyclic
      trans := fun _ _ _ hxy hyz => Relation.TransGen.trans hyz hxy }
  have hwf := Set.wellFoundedOn_iff.mp (hfinite.wellFoundedOn (r := fun y x => Ancestor parent y x))
  refine ⟨fun x => ?_⟩
  induction x using hwf.induction with
  | _ x ih =>
    refine ⟨x, fun y hy => ?_⟩
    by_cases hroot : parent y = none
    · exact ⟨y, fun z hz => by simp [hroot] at hz⟩
    · exact ih y ⟨.single hy, hroot, by simp [hy]⟩

end CpuLimit.Library.ParentTree
