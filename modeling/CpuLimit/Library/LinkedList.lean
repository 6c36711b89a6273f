import Mathlib.Data.List.Nodup
import Mathlib.Data.List.Basic
import Mathlib.Data.List.Induction
import Mathlib.Logic.Function.Basic

/-!
# Doubly linked lists on a heap

A heap is a partial map from addresses to nodes, so that an access through a
null pointer or to a freed node is refused. `Segment` says that a sequence of
nodes is linked both ways between a predecessor and a successor. It splits at
every node, which makes an edit of one node local: the rest of the chain is
carried over by `Segment.congr`.
-/
namespace CpuLimit.Library.LinkedList

variable {A α : Type*}

/-- `none` is the null pointer. -/
structure Node (A α : Type*) where
  data : α
  previous : Option A
  next : Option A
  deriving DecidableEq

/-- `none` marks an address that is not allocated. -/
abbrev Heap (A α : Type*) := A → Option (Node A α)

/-! ## Sequences of nodes -/

def addresses (l : List (A × α)) : List A := l.map Prod.fst

def first (l : List (A × α)) : Option A := (addresses l).head?

def last (l : List (A × α)) : Option A := (addresses l).getLast?

@[simp] theorem addresses_nil : addresses ([] : List (A × α)) = [] := rfl

@[simp] theorem addresses_cons (node : A × α) (l : List (A × α)) :
    addresses (node :: l) = node.1 :: addresses l := rfl

@[simp] theorem addresses_append (l m : List (A × α)) :
    addresses (l ++ m) = addresses l ++ addresses m := List.map_append

theorem mem_addresses {a : A} {l : List (A × α)} : a ∈ addresses l ↔ ∃ x, (a, x) ∈ l := by
  simp [addresses]

/-- No address comes twice: a node in the middle has an address of its own. -/
theorem nodup_middle {l m : List (A × α)} {a : A} {x : α} :
    (addresses (l ++ (a, x) :: m)).Nodup ↔
      a ∉ addresses (l ++ m) ∧ (addresses (l ++ m)).Nodup := by
  rw [addresses_append, addresses_cons, addresses_append, List.nodup_middle, List.nodup_cons]

@[simp] theorem first_nil : first ([] : List (A × α)) = none := rfl

@[simp] theorem first_cons (node : A × α) (l : List (A × α)) : first (node :: l) = some node.1 :=
  rfl

@[simp] theorem last_nil : last ([] : List (A × α)) = none := rfl

@[simp] theorem first_append (l m : List (A × α)) : first (l ++ m) = (first l).or (first m) := by
  simp [first, List.head?_append]

@[simp] theorem last_append (l m : List (A × α)) : last (l ++ m) = (last m).or (last l) := by
  simp [last, List.getLast?_append]

@[simp] theorem last_singleton (node : A × α) : last [node] = some node.1 := rfl

@[simp] theorem last_cons_cons (node node' : A × α) (l : List (A × α)) :
    last (node :: node' :: l) = last (node' :: l) := by
  simp [last]

theorem mem_of_first {l : List (A × α)} {a : A} (h : first l = some a) : a ∈ addresses l :=
  List.mem_of_head? h

theorem mem_of_last {l : List (A × α)} {a : A} (h : last l = some a) : a ∈ addresses l :=
  List.mem_of_getLast? h

theorem first_eq_none_iff (l : List (A × α)) : first l = none ↔ l = [] := by
  simp [first, addresses]

theorem last_eq_none_iff (l : List (A × α)) : last l = none ↔ l = [] := by
  simp [last, addresses]

theorem first_append_of_ne_nil {l : List (A × α)} (hl : l ≠ []) (m : List (A × α)) :
    first (l ++ m) = first l := by
  cases l with
  | nil => exact absurd rfl hl
  | cons node l => rfl

theorem last_append_of_ne_nil (l : List (A × α)) {m : List (A × α)} (hm : m ≠ []) :
    last (l ++ m) = last m := by
  cases hlast : last m with
  | none => exact absurd ((last_eq_none_iff m).mp hlast) hm
  | some a => rw [last_append, hlast, Option.some_or]

/-- Erasing a node by its address takes out one position. -/
theorem eraseP_split [DecidableEq A] {l : List (A × α)} {a : A} (ha : a ∈ addresses l) :
    ∃ before x after, l = before ++ (a, x) :: after ∧
      (l.eraseP fun node => node.1 = a) = before ++ after := by
  obtain ⟨x, hx⟩ := mem_addresses.mp ha
  obtain ⟨⟨b, y⟩, before, after, -, hb, hl, herase⟩ :=
    List.exists_of_eraseP (p := fun node : A × α => node.1 = a) hx (by simp)
  obtain rfl : b = a := by simpa using hb
  exact ⟨before, y, after, hl, herase⟩

/-! ## Linked segments -/

/-- The nodes of the sequence are linked both ways, the first of them back to
`before` and the last of them on to `after`. -/
def Segment (heap : Heap A α) : Option A → List (A × α) → Option A → Prop
  | _, [], _ => True
  | before, (a, x) :: l, after =>
    heap a = some ⟨x, before, (first l).or after⟩ ∧ Segment heap (some a) l after

section Segments

variable {heap heap' : Heap A α} {before after : Option A} {l m : List (A × α)} {a : A} {x : α}

@[simp] theorem segment_nil : Segment heap before [] after := trivial

@[simp] theorem segment_cons :
    Segment heap before ((a, x) :: l) after ↔
      heap a = some ⟨x, before, (first l).or after⟩ ∧ Segment heap (some a) l after :=
  Iff.rfl

/-- A segment splits at every seam. -/
theorem segment_append :
    Segment heap before (l ++ m) after ↔
      Segment heap before l ((first m).or after) ∧ Segment heap ((last l).or before) m after := by
  induction l generalizing before with
  | nil => simp
  | cons node l ih =>
    obtain ⟨a, x⟩ := node
    have hlast : (last l).or (some a) = (last ((a, x) :: l)).or before := by
      rw [← List.singleton_append, last_append, last_singleton]
      cases last l <;> rfl
    rw [List.cons_append, segment_cons, segment_cons, ih, first_append, Option.or_assoc, hlast,
      and_assoc]

/-- A segment depends on its own nodes only. -/
theorem Segment.congr (h : Segment heap before l after)
    (hagree : ∀ a ∈ addresses l, heap' a = heap a) : Segment heap' before l after := by
  induction l generalizing before with
  | nil => trivial
  | cons node l ih =>
    obtain ⟨a, x⟩ := node
    exact ⟨(hagree a (by simp)).trans h.1, ih h.2 fun b hb => hagree b (by simp [hb])⟩

theorem Segment.allocated (h : Segment heap before l after) (ha : a ∈ addresses l) :
    ∃ node, heap a = some node := by
  induction l generalizing before with
  | nil => cases ha
  | cons node l ih =>
    rcases List.mem_cons.mp ha with rfl | ha
    · exact ⟨_, h.1⟩
    · exact ih h.2 ha

theorem Segment.data_eq (h : Segment heap before l after) (hmem : (a, x) ∈ l) :
    (heap a).map Node.data = some x := by
  induction l generalizing before with
  | nil => cases hmem
  | cons node l ih =>
    rcases List.mem_cons.mp hmem with rfl | hmem
    · rw [h.1, Option.map_some]
    · exact ih h.2 hmem

theorem Segment.notMem (h : Segment heap before l after) (ha : heap a = none) :
    a ∉ addresses l := fun hmem => by
  obtain ⟨node, hnode⟩ := h.allocated hmem
  rw [ha] at hnode
  cases hnode

end Segments

/-! ## Walks -/

/-- Following `link` from `p` visits these nodes and ends at the null pointer. -/
def Visits (link : Node A α → Option A) (heap : Heap A α) : Option A → List (A × α) → Prop
  | p, [] => p = none
  | p, (a, x) :: l => p = some a ∧ ∃ node, heap a = some node ∧ node.data = x ∧
      Visits link heap (link node) l

section Walks

variable {heap : Heap A α} {before after : Option A} {l : List (A × α)}

theorem Segment.visits_next (h : Segment heap before l none) :
    Visits Node.next heap (first l) l := by
  induction l generalizing before with
  | nil => rfl
  | cons node l ih =>
    refine ⟨rfl, _, h.1, rfl, ?_⟩
    rw [Option.or_none]
    exact ih h.2

/-- The walk back passes the nodes in reverse. -/
theorem Segment.visits_previous (h : Segment heap none l after) :
    Visits Node.previous heap (last l) l.reverse := by
  induction l using List.reverseRecOn generalizing after with
  | nil => rfl
  | append_singleton l node ih =>
    obtain ⟨a, x⟩ := node
    rw [segment_append, Option.or_none, segment_cons] at h
    rw [List.reverse_append, last_append]
    exact ⟨rfl, _, h.2.1, rfl, ih h.1⟩

variable {link : Node A α → Option A} {p : Option A}

theorem Visits.start (h : Visits link heap p l) : p = first l := by
  cases l with
  | nil => exact h
  | cons node l => exact h.1

/-- A walk reads the link of each node that it passes. -/
theorem Visits.link_eq {l m : List (A × α)} {a : A} {x : α}
    (h : Visits link heap p (l ++ (a, x) :: m)) :
    ∃ node, heap a = some node ∧ node.data = x ∧ link node = first m := by
  induction l generalizing p with
  | nil =>
    obtain ⟨-, node, hcell, hdata, hrest⟩ := h
    exact ⟨node, hcell, hdata, hrest.start⟩
  | cons _ l ih =>
    obtain ⟨-, node, -, -, hrest⟩ := h
    exact ih hrest

/-- A sequence is a segment if each of its nodes has the right links. -/
theorem segment_of_cells
    (h : ∀ b a x c, l = b ++ (a, x) :: c →
      heap a = some ⟨x, (last b).or before, (first c).or after⟩) : Segment heap before l after := by
  induction l generalizing before with
  | nil => trivial
  | cons node l ih =>
    obtain ⟨a, x⟩ := node
    refine ⟨h [] a x l rfl, ih fun b a' x' c hl => ?_⟩
    have hcell := h ((a, x) :: b) a' x' c (congrArg _ hl)
    rw [hcell, ← List.singleton_append, last_append, last_singleton, Option.or_assoc,
      Option.some_or]

/-- A chain is well linked exactly if the walks from its two ends pass the same nodes. -/
theorem segment_iff_visits :
    Segment heap none l none ↔
      Visits Node.next heap (first l) l ∧ Visits Node.previous heap (last l) l.reverse := by
  refine ⟨fun h => ⟨h.visits_next, h.visits_previous⟩, fun ⟨hnext, hprevious⟩ => ?_⟩
  refine segment_of_cells fun b a x c hl => ?_
  subst hl
  obtain ⟨node, hcell, rfl, hn⟩ := hnext.link_eq
  rw [List.reverse_append, List.reverse_cons, List.append_assoc, List.singleton_append] at hprevious
  obtain ⟨node', hcell', -, hp⟩ := hprevious.link_eq
  obtain rfl : node = node' := Option.some.inj (hcell.symm.trans hcell')
  have hlast : first b.reverse = last b := by
    simp [first, last, addresses]
  rw [hcell, Option.or_none, Option.or_none, ← hlast, ← hp, ← hn]

end Walks

/-! ## Stores -/

section Stores

variable [DecidableEq A]

def storeNext (heap : Heap A α) (p v : Option A) : Option (Heap A α) :=
  p.bind fun a => (heap a).map fun node => Function.update heap a (some { node with next := v })

def storePrevious (heap : Heap A α) (p v : Option A) : Option (Heap A α) :=
  p.bind fun a => (heap a).map fun node => Function.update heap a (some { node with previous := v })

/-- A fresh address receives its contents. -/
def allocate (heap : Heap A α) (a : A) (node : Node A α) : Heap A α :=
  Function.update heap a (some node)

/-- Only an allocated node can be freed. -/
def free (heap : Heap A α) (a : A) : Option (Heap A α) :=
  (heap a).map fun _ => Function.update heap a none

variable {heap : Heap A α} {before after v : Option A} {l : List (A × α)} {a : A} {x : α}

theorem Segment.update_of_notMem (h : Segment heap before l after) (ha : a ∉ addresses l)
    (cell : Option (Node A α)) : Segment (Function.update heap a cell) before l after :=
  h.congr fun _ hb => Function.update_of_ne (ne_of_mem_of_not_mem hb ha) _ _

/-- Redirecting the last node changes the successor of the segment. -/
theorem Segment.storeNext (h : Segment heap before (l ++ [(a, x)]) after) (ha : a ∉ addresses l)
    (v : Option A) :
    ∃ heap', LinkedList.storeNext heap (some a) v = some heap' ∧
      Segment heap' before (l ++ [(a, x)]) v ∧ ∀ b, b ≠ a → heap' b = heap b := by
  rw [segment_append, segment_cons] at h
  obtain ⟨hl, hcell, -⟩ := h
  refine ⟨_, by rw [LinkedList.storeNext, Option.bind_some, hcell, Option.map_some], ?_,
    fun b hb => Function.update_of_ne hb _ _⟩
  rw [segment_append, segment_cons]
  refine ⟨hl.update_of_notMem ha _, ?_, trivial⟩
  rw [Function.update_self]
  rfl

/-- Redirecting the first node changes the predecessor of the segment. -/
theorem Segment.storePrevious (h : Segment heap before ((a, x) :: l) after)
    (ha : a ∉ addresses l) (v : Option A) :
    ∃ heap', LinkedList.storePrevious heap (some a) v = some heap' ∧
      Segment heap' v ((a, x) :: l) after ∧ ∀ b, b ≠ a → heap' b = heap b := by
  obtain ⟨hcell, hl⟩ := h
  refine ⟨_, by rw [LinkedList.storePrevious, Option.bind_some, hcell, Option.map_some], ?_,
    fun b hb => Function.update_of_ne hb _ _⟩
  exact ⟨Function.update_self _ _ _, hl.update_of_notMem ha _⟩

theorem Segment.free (h : Segment heap before ((a, x) :: l) after) (ha : a ∉ addresses l) :
    ∃ heap', LinkedList.free heap a = some heap' ∧ Segment heap' (some a) l after ∧
      heap' a = none ∧ ∀ b, b ≠ a → heap' b = heap b := by
  obtain ⟨hcell, hl⟩ := h
  exact ⟨_, by rw [LinkedList.free, hcell, Option.map_some], hl.update_of_notMem ha _,
    Function.update_self _ _ _, fun b hb => Function.update_of_ne hb _ _⟩

/-- The neighbours of a node become neighbours of each other. -/
theorem Segment.bypass {c d : A} {y z : α} {m : List (A × α)}
    (h : Segment heap before ((l ++ [(c, y)]) ++ (a, x) :: (d, z) :: m) after)
    (hdistinct : (addresses ((l ++ [(c, y)]) ++ (a, x) :: (d, z) :: m)).Nodup) :
    ∃ heap₁ heap₂, LinkedList.storeNext heap (some c) (some d) = some heap₁ ∧
      heap₁ a = heap a ∧ LinkedList.storePrevious heap₁ (some d) (some c) = some heap₂ ∧
      Segment heap₂ before ((l ++ [(c, y)]) ++ (d, z) :: m) after ∧
      ∀ b, b ≠ c → b ≠ d → heap₂ b = heap b := by
  obtain ⟨hleft, -, hright⟩ := segment_append.mp h
  obtain ⟨ha, hrest⟩ := nodup_middle.mp hdistinct
  have hd := (nodup_middle.mp hrest).1
  rw [List.append_assoc, List.singleton_append] at hrest
  have hc := (nodup_middle.mp hrest).1
  simp only [addresses_append, addresses_cons, addresses_nil, List.mem_append, List.mem_cons,
    List.not_mem_nil, or_false, not_or] at ha hc hd
  obtain ⟨heap₁, hnext, hleft₁, hframe₁⟩ := hleft.storeNext hc.1 (some d)
  have hright₁ : Segment heap₁ (some a) ((d, z) :: m) after := by
    refine hright.congr fun b hb => hframe₁ b ?_
    rintro rfl
    rcases List.mem_cons.mp hb with hbd | hbm
    · exact hc.2.1 hbd
    · exact hc.2.2 hbm
  obtain ⟨heap₂, hprevious, hright₂, hframe₂⟩ := hright₁.storePrevious hd.2 (some c)
  refine ⟨heap₁, heap₂, hnext, hframe₁ a ha.1.2, hprevious, segment_append.mpr ⟨?_, ?_⟩,
    fun b hbc hbd => (hframe₂ b hbd).trans (hframe₁ b hbc)⟩
  · refine hleft₁.congr fun b hb => hframe₂ b ?_
    rintro rfl
    simp [hd.1.1, hd.1.2] at hb
  · rw [last_append]
    exact hright₂

end Stores

end CpuLimit.Library.LinkedList
