import Mathlib.Data.Nat.Notation

/-!
# Calls that may not come back

A call returns, ends the program, commits a fault, or has used up its fuel. A
postcondition speaks of the calls that return and excludes faults, so it can be
proved step by step: through `bind` with an intermediate condition, and through
a loop with an invariant.
-/
namespace CpuLimit.Library

inductive Outcome (φ : Type) (α : Type)
  | returned (a : α)
  | exited
  | faulted (fault : φ)
  | unfinished

namespace Outcome

variable {φ α β σ : Type}

protected def bind (x : Outcome φ α) (f : α → Outcome φ β) : Outcome φ β :=
  match x with
  | returned a => f a
  | exited => exited
  | faulted fault => faulted fault
  | unfinished => unfinished

instance : Monad (Outcome φ) where
  pure := returned
  bind := Outcome.bind

@[simp] theorem pure_eq (a : α) : (pure a : Outcome φ α) = returned a := rfl

@[simp] theorem returned_bind (a : α) (f : α → Outcome φ β) : returned a >>= f = f a := rfl

@[simp] theorem exited_bind (f : α → Outcome φ β) : (exited : Outcome φ α) >>= f = exited := rfl

@[simp] theorem faulted_bind (fault : φ) (f : α → Outcome φ β) :
    (faulted fault : Outcome φ α) >>= f = faulted fault := rfl

/-- There is no fault, and the result satisfies `post`. -/
def Meets (post : α → Prop) : Outcome φ α → Prop
  | returned a => post a
  | exited => True
  | faulted _ => False
  | unfinished => True

variable {post mid : α → Prop} {x : Outcome φ α}

@[simp] theorem meets_returned {a : α} : (returned a : Outcome φ α).Meets post ↔ post a := Iff.rfl

@[simp] theorem meets_exited : (exited : Outcome φ α).Meets post := trivial

@[simp] theorem not_meets_faulted {fault : φ} : ¬ (faulted fault : Outcome φ α).Meets post := id

theorem Meets.mono (h : x.Meets mid) (himp : ∀ a, mid a → post a) : x.Meets post := by
  cases x with
  | returned a => exact himp a h
  | exited => trivial
  | faulted fault => exact h
  | unfinished => trivial

theorem Meets.bind {f : α → Outcome φ β} {post : β → Prop} (h : x.Meets mid)
    (hf : ∀ a, mid a → (f a).Meets post) : (x >>= f).Meets post := by
  cases x with
  | returned a => exact hf a h
  | exited => trivial
  | faulted fault => exact h.elim
  | unfinished => trivial

/-- What never returns after a result that satisfies `mid` never returns. -/
theorem Meets.bind_ne_returned {f : α → Outcome φ β} {b : β} (h : x.Meets mid)
    (hf : ∀ a, mid a → f a ≠ returned b) : x >>= f ≠ returned b := by
  cases x with
  | returned a => exact hf a h
  | exited => exact fun he => by cases he
  | faulted fault => exact h.elim
  | unfinished => exact fun he => by cases he

/-- A loop whose body goes on with a new state or leaves with a result. -/
def iterate (body : σ → Outcome φ (σ ⊕ β)) : ℕ → σ → Outcome φ β
  | 0, _ => unfinished
  | fuel + 1, s => body s >>= Sum.elim (iterate body fuel) returned

/-- What the body keeps as long as it goes on, and brings about when it leaves. -/
theorem meets_iterate {body : σ → Outcome φ (σ ⊕ β)} {inv : σ → Prop} {post : β → Prop}
    (hbody : ∀ s, inv s → (body s).Meets (Sum.elim inv post)) (fuel : ℕ) {s : σ} (hs : inv s) :
    (iterate body fuel s).Meets post := by
  induction fuel generalizing s with
  | zero => trivial
  | succ fuel ih =>
    refine (hbody s hs).bind fun turn hturn => ?_
    cases turn with
    | inl t => exact ih hturn
    | inr b => exact hturn

/-! ## Calls that come to an end -/

/-- The fuel is not used up. -/
def Ends (x : Outcome φ α) : Prop := x ≠ unfinished

@[simp] theorem ends_returned {a : α} : (returned a : Outcome φ α).Ends := by
  simp [Ends]

@[simp] theorem ends_exited : (exited : Outcome φ α).Ends := by
  simp [Ends]

@[simp] theorem ends_faulted {fault : φ} : (faulted fault : Outcome φ α).Ends := by
  simp [Ends]

theorem Ends.bind {f : α → Outcome φ β} (hx : x.Ends) (hf : ∀ a, (f a).Ends) :
    (x >>= f).Ends := by
  cases x with
  | returned a => exact hf a
  | exited => exact ends_exited
  | faulted fault => exact ends_faulted
  | unfinished => exact absurd rfl hx

/-- Total correctness: the call ends without a fault, and its result satisfies `post`. -/
structure Delivers (post : α → Prop) (x : Outcome φ α) : Prop where
  ends : x.Ends
  meets : x.Meets post

theorem Delivers.mono (h : x.Delivers mid) (himp : ∀ a, mid a → post a) : x.Delivers post :=
  ⟨h.ends, h.meets.mono himp⟩

theorem Delivers.bind {f : α → Outcome φ β} {post : β → Prop} (h : x.Delivers mid)
    (hf : ∀ a, mid a → (f a).Delivers post) : (x >>= f).Delivers post := by
  refine ⟨?_, h.meets.bind fun a ha => (hf a ha).meets⟩
  cases x with
  | returned a => exact (hf a h.meets).ends
  | exited => exact ends_exited
  | faulted fault => exact ends_faulted
  | unfinished => exact absurd rfl h.ends

/-- Enough fuel for a loop is more than a measure that every turn lowers that goes on. -/
theorem delivers_iterate {body : σ → Outcome φ (σ ⊕ β)} {post : β → Prop} (inv : σ → Prop)
    (measure : σ → ℕ)
    (hbody : ∀ s, inv s →
      (body s).Delivers (Sum.elim (fun t => inv t ∧ measure t < measure s) post))
    {fuel : ℕ} {s : σ} (hs : inv s) (hfuel : measure s < fuel) :
    (iterate body fuel s).Delivers post := by
  induction fuel generalizing s with
  | zero => exact absurd hfuel (Nat.not_lt_zero _)
  | succ fuel ih =>
    refine (hbody s hs).bind fun turn hturn => ?_
    cases turn with
    | inl t => exact ih hturn.1 (Nat.lt_of_lt_of_le hturn.2 (Nat.le_of_lt_succ hfuel))
    | inr b => exact ⟨ends_returned, hturn⟩

theorem Delivers.returned {a : α} (h : post a) : (returned a : Outcome φ α).Delivers post :=
  ⟨ends_returned, h⟩

theorem delivers_exited : (exited : Outcome φ α).Delivers post := ⟨ends_exited, trivial⟩

/-! ## Optional results -/

/-- What a call returns, if it does. -/
def result : Outcome φ α → Option α
  | returned a => some a
  | exited => none
  | faulted _ => none
  | unfinished => none

/-- No result is a fault. -/
def orFault (fault : φ) (x : Option α) : Outcome φ α := x.elim (faulted fault) returned

/-- No result ends the program. -/
def orExit (x : Option α) : Outcome φ α := x.elim exited returned

@[simp] theorem orFault_some {fault : φ} (a : α) : orFault fault (some a) = returned a := rfl

theorem delivers_orExit {x : Option α} (h : ∀ a, x = some a → post a) :
    (orExit x : Outcome φ α).Delivers post := by
  cases x with
  | none => exact delivers_exited
  | some a => exact .returned (h a rfl)

end Outcome

end CpuLimit.Library
