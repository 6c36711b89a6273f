import Mathlib.Data.List.Basic

/-!
# Openings and closings

A sequence in which some elements open and some close. It is guarded when every closing
has an opening before it and no other closing in between. A sequence that comes in
rounds, each of which first opens and then closes some of what it has opened, is guarded
for each key.
-/
namespace CpuLimit.Library.Alternation

variable {ω κ : Type*} {opens closes : ω → Prop} {l m : List ω} {x : ω}

/-- There is an opening with no closing after it. -/
def Pending (opens closes : ω → Prop) (l : List ω) : Prop :=
  ∃ before x after, l = before ++ x :: after ∧ opens x ∧ ∀ y ∈ after, ¬ closes y

/-- Every closing meets a pending opening. -/
def Guarded (opens closes : ω → Prop) (l : List ω) : Prop :=
  ∀ before x after, l = before ++ x :: after → closes x → Pending opens closes before

theorem pending_append_singleton (l : List ω) (hx : opens x) : Pending opens closes (l ++ [x]) :=
  ⟨l, x, [], rfl, hx, by simp⟩

theorem Pending.append (h : Pending opens closes l) (hm : ∀ y ∈ m, ¬ closes y) :
    Pending opens closes (l ++ m) := by
  obtain ⟨before, x, after, rfl, hx, hafter⟩ := h
  refine ⟨before, x, after ++ m, by simp, hx, fun y hy => ?_⟩
  rcases List.mem_append.mp hy with hy | hy
  · exact hafter y hy
  · exact hm y hy

theorem guarded_nil : Guarded opens closes ([] : List ω) := by
  intro before x after h
  simp at h

/-- The last element decides, given the others. -/
theorem Guarded.append_singleton (h : Guarded opens closes l)
    (hx : closes x → Pending opens closes l) : Guarded opens closes (l ++ [x]) := by
  intro before y after he hy
  rcases List.eq_nil_or_concat after with rfl | ⟨after, z, rfl⟩
  · obtain ⟨rfl, hxy⟩ := List.append_inj' he rfl
    obtain rfl := List.singleton_inj.mp hxy
    exact hx hy
  · rw [List.concat_eq_append, ← List.cons_append, ← List.append_assoc] at he
    exact h before y after (List.append_inj' he rfl).1 hy

theorem Guarded.append (h : Guarded opens closes l) (hm : ∀ y ∈ m, ¬ closes y) :
    Guarded opens closes (l ++ m) := by
  induction m generalizing l with
  | nil => rwa [List.append_nil]
  | cons y m ih =>
    rw [List.append_cons]
    have hy : ¬ closes y := hm y (by simp)
    exact ih (h.append_singleton fun hc => absurd hc hy) fun z hz => hm z (by simp [hz])

/-! ## Rounds -/

/-- A round opens for some keys, and then closes for some of them. -/
structure Round (κ : Type*) where
  opened : List κ
  closed : List κ

namespace Round

variable (f g : κ → ω)

def trace (r : Round κ) : List ω := r.opened.map f ++ r.closed.map g

/-- No key comes twice, and only what is open is closed. -/
structure Valid (r : Round κ) : Prop where
  closed_sublist : r.closed.Sublist r.opened
  nodup : r.opened.Nodup

variable {f g} {r : Round κ} {k : κ}

/-- A valid round guards every key, whatever comes before it. -/
theorem Valid.guarded (hr : r.Valid) (hg : Function.Injective g) (hfg : ∀ i j, f i ≠ g j)
    (h : Guarded (· = f k) (· = g k) l) : Guarded (· = f k) (· = g k) (l ++ r.trace f g) := by
  have hopened : ∀ {i : List κ}, ∀ y ∈ i.map f, ¬ y = g k := by
    intro i y hy he
    obtain ⟨j, -, rfl⟩ := List.mem_map.mp hy
    exact hfg j k he
  have hclosed : ∀ {i : List κ}, k ∉ i → ∀ y ∈ i.map g, ¬ y = g k := by
    intro i hk y hy he
    obtain ⟨j, hj, rfl⟩ := List.mem_map.mp hy
    exact hk (hg he ▸ hj)
  have hopen : Guarded (· = f k) (· = g k) (l ++ r.opened.map f) := h.append hopened
  rw [trace, ← List.append_assoc]
  by_cases hk : k ∈ r.closed
  · have hpending : Pending (· = f k) (· = g k) (l ++ r.opened.map f) := by
      obtain ⟨before, after, he⟩ := List.append_of_mem (hr.closed_sublist.subset hk)
      have hlast : Pending (· = f k) (· = g k) (l ++ before.map f ++ [f k]) :=
        pending_append_singleton _ rfl
      rw [he, List.map_append, List.map_cons, List.append_cons, ← List.append_assoc,
        ← List.append_assoc]
      exact hlast.append hopened
    -- the key is closed once: quiet before it, and quiet after it
    obtain ⟨before, after, he⟩ := List.append_of_mem hk
    have hnodup : (before ++ k :: after).Nodup := he ▸ hr.nodup.sublist hr.closed_sublist
    have hbefore : k ∉ before := fun hmem =>
      (List.nodup_append.mp hnodup).2.2 k hmem k (by simp) rfl
    have hafter : k ∉ after := (List.nodup_cons.mp (List.nodup_append.mp hnodup).2.1).1
    rw [he, List.map_append, List.map_cons, List.append_cons, ← List.append_assoc,
      ← List.append_assoc]
    exact ((hopen.append (hclosed hbefore)).append_singleton fun _ =>
      hpending.append (hclosed hbefore)).append (hclosed hafter)
  · exact hopen.append (hclosed hk)

/-- Valid rounds guard every key. -/
theorem guarded_flatMap {rounds : List (Round κ)} (hrounds : ∀ r ∈ rounds, r.Valid)
    (hg : Function.Injective g) (hfg : ∀ i j, f i ≠ g j) (k : κ) :
    Guarded (· = f k) (· = g k) (rounds.flatMap (trace f g)) := by
  have hafter : ∀ l : List ω, Guarded (· = f k) (· = g k) l →
      Guarded (· = f k) (· = g k) (l ++ rounds.flatMap (trace f g)) := by
    induction rounds with
    | nil => exact fun l h => by rwa [List.flatMap_nil, List.append_nil]
    | cons r rounds ih =>
      intro l h
      rw [List.flatMap_cons, ← List.append_assoc]
      exact ih (fun r' hr' => hrounds r' (by simp [hr'])) _
        ((hrounds r (by simp)).guarded hg hfg h)
  exact hafter [] guarded_nil

end Round

end CpuLimit.Library.Alternation
