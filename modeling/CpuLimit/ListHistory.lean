import CpuLimit.ListHeap

/-!
# Histories of list operations

Several lists share a heap. A history of their operations runs next to
sequences of nodes, one for each list: `add_elem` appends, `delete_node` takes
out one position, and `clear_list` and `destroy_list` leave nothing. Every legal
history goes through without a fault and keeps each list the image of its
sequence, and no operation touches a node of another list.
-/
namespace CpuLimit

open Library
open Library.LinkedList (Node Heap addresses)

variable {ι A D : Type*}

/-- `none` is a `struct list` whose fields are not set. -/
structure ListStore (ι A D : Type*) where
  heap : Heap A (Option D)
  lists : ι → Option (StructList A)

/-- The nodes of each list with their data; `none` before `init_list`. -/
abbrev Sequences (ι A D : Type*) := ι → Option (List (A × Option D))

def Sequences.nodes (r : Sequences ι A D) (i : ι) : List (A × Option D) := (r i).getD []

theorem Sequences.nodes_of_some {r : Sequences ι A D} {i : ι} {nodes : List (A × Option D)}
    (h : r i = some nodes) : r.nodes i = nodes := by
  rw [Sequences.nodes, h, Option.getD_some]

namespace ListStore

/-- Each initialised list is well formed and consists of the nodes of its
sequence, and no two lists share a node. -/
structure Represents (s : ListStore ι A D) (r : Sequences ι A D) : Prop where
  wellFormed : ∀ i nodes, r i = some nodes →
    ∃ l, s.lists i = some l ∧ l.WellFormed s.heap nodes
  disjoint : ∀ i j, i ≠ j → List.Disjoint (addresses (r.nodes i)) (addresses (r.nodes j))

/-- The fields and the nodes of the lists other than `i` stay as they are. -/
def SameElsewhere (r : Sequences ι A D) (i : ι) (s t : ListStore ι A D) : Prop :=
  ∀ j, j ≠ i → t.lists j = s.lists j ∧ ∀ a ∈ addresses (r.nodes j), t.heap a = s.heap a

theorem Represents.start (heap : Heap A (Option D)) :
    Represents (⟨heap, fun _ => none⟩ : ListStore ι A D) fun _ => none where
  wellFormed i nodes h := by cases h
  disjoint i j _ := by simp [Sequences.nodes]

/-- The nodes of the lists are allocated. -/
theorem Represents.allocated {s : ListStore ι A D} {r : Sequences ι A D} (h : s.Represents r)
    {i : ι} {a : A} (ha : a ∈ addresses (r.nodes i)) : s.heap a ≠ none := by
  cases hr : r i with
  | none => simp [Sequences.nodes, hr] at ha
  | some nodes =>
    obtain ⟨l, -, hl⟩ := h.wellFormed i nodes hr
    rw [Sequences.nodes_of_some hr] at ha
    intro hnone
    exact hl.links.notMem hnone ha

end ListStore

/-! ## The heap as a whole -/

/-- The address is a node of one of the lists. -/
def Sequences.Holds (r : Sequences ι A D) (a : A) : Prop := ∃ i, a ∈ addresses (r.nodes i)

/-- A node that leaves the lists is freed, one that comes to them was not in use, and
nothing else is written. -/
structure Confined (r r' : Sequences ι A D) (heap heap' : Heap A (Option D)) : Prop where
  outside : ∀ a, ¬ r.Holds a → ¬ r'.Holds a → heap' a = heap a
  freed : ∀ a, r.Holds a → ¬ r'.Holds a → heap' a = none
  taken : ∀ a, r'.Holds a → r.Holds a ∨ heap a = none

namespace Confined

variable {r r' r'' : Sequences ι A D} {heap heap' heap'' : Heap A (Option D)}

theorem refl (r : Sequences ι A D) (heap : Heap A (Option D)) : Confined r r heap heap :=
  ⟨fun _ _ _ => rfl, fun _ h hnot => absurd h hnot, fun _ h => Or.inl h⟩

/-- What a second change frees again was free before the first. -/
theorem trans (h : Confined r r' heap heap') (h' : Confined r' r'' heap' heap'') :
    Confined r r'' heap heap'' := by
  refine ⟨fun a ha ha'' => ?_, fun a ha ha'' => ?_, fun a ha'' => ?_⟩
  · by_cases ha' : r'.Holds a
    · rw [h'.freed a ha' ha'', (h.taken a ha').resolve_left ha]
    · rw [h'.outside a ha' ha'', h.outside a ha ha']
  · by_cases ha' : r'.Holds a
    · exact h'.freed a ha' ha''
    · rw [h'.outside a ha' ha'', h.freed a ha ha']
  · rcases h'.taken a ha'' with ha' | hfree
    · exact h.taken a ha'
    · by_cases ha : r.Holds a
      · exact Or.inl ha
      · by_cases ha' : r'.Holds a
        · exact h.taken a ha'
        · exact Or.inr ((h.outside a ha ha').symm.trans hfree)

/-- Where there are no nodes before and after, the heap is what it was. -/
theorem heap_eq (h : Confined r r' heap heap') (hr : ∀ a, ¬ r.Holds a)
    (hr' : ∀ a, ¬ r'.Holds a) : heap' = heap :=
  funext fun a => h.outside a (hr a) (hr' a)

end Confined

/-! ## Changing one list -/

section Modify

variable [DecidableEq ι]

theorem Sequences.nodes_update (r : Sequences ι A D) (i j : ι) (x : Option (List (A × Option D))) :
    Sequences.nodes (Function.update r i x) j = if j = i then x.getD [] else r.nodes j := by
  rw [Sequences.nodes, Function.update_apply]
  split_ifs <;> rfl

/-- One list changes, or its `struct list` is gone. -/
theorem Confined.update {r : Sequences ι A D} {i : ι} {nodes : List (A × Option D)}
    {x : Option (List (A × Option D))} {heap heap' : Heap A (Option D)} (hr : r.nodes i = nodes)
    (hframe : ∀ a, a ∉ addresses nodes → a ∉ addresses (x.getD []) → heap' a = heap a)
    (hfreed : ∀ a ∈ addresses nodes, a ∉ addresses (x.getD []) → heap' a = none)
    (hnew : ∀ a ∈ addresses (x.getD []), a ∈ addresses nodes ∨ heap a = none) :
    Confined r (Function.update r i x) heap heap' := by
  have hself : ∀ a, ¬ Sequences.Holds (Function.update r i x) a →
      a ∉ addresses (x.getD []) := fun a hnot ha =>
    hnot ⟨i, by rwa [Sequences.nodes_update, if_pos rfl]⟩
  have hother : ∀ a j, j ≠ i → a ∈ addresses (r.nodes j) →
      Sequences.Holds (Function.update r i x) a := fun a j hj ha =>
    ⟨j, by rwa [Sequences.nodes_update, if_neg hj]⟩
  refine ⟨fun a ha ha' => ?_, fun a ha ha' => ?_, fun a ha' => ?_⟩
  · exact hframe a (fun hmem => ha ⟨i, hr ▸ hmem⟩) (hself a ha')
  · obtain ⟨j, hj⟩ := ha
    by_cases hji : j = i
    · subst hji
      exact hfreed a (hr ▸ hj) (hself a ha')
    · exact absurd (hother a j hji hj) ha'
  · obtain ⟨j, hj⟩ := ha'
    rw [Sequences.nodes_update] at hj
    split_ifs at hj with hji
    · exact (hnew a hj).imp_left fun hmem => ⟨i, hr ▸ hmem⟩
    · exact Or.inl ⟨j, hj⟩

namespace ListStore

/-- An operation reads the fields of its list, which must be set. -/
def modify (s : ListStore ι A D) (i : ι)
    (op : Heap A (Option D) → StructList A → Option (Heap A (Option D) × StructList A)) :
    Option (ListStore ι A D) :=
  (s.lists i).bind fun l =>
    (op s.heap l).map fun r => ⟨r.1, Function.update s.lists i (some r.2)⟩

variable {s : ListStore ι A D} {r : Sequences ι A D} {i : ι} {nodes nodes' : List (A × Option D)}

/-- One list changes: its new nodes are old ones or freshly allocated, and
nothing is written outside of them. -/
theorem Represents.replace (h : s.Represents r) {heap' : Heap A (Option D)} {l' : StructList A}
    (hl' : l'.WellFormed heap' nodes')
    (hnew : ∀ a ∈ addresses nodes', a ∈ addresses (r.nodes i) ∨ s.heap a = none)
    (hframe : ∀ a, a ∉ addresses (r.nodes i) → a ∉ addresses nodes' → heap' a = s.heap a) :
    let t : ListStore ι A D := ⟨heap', Function.update s.lists i (some l')⟩
    t.Represents (Function.update r i (some nodes')) ∧ SameElsewhere r i s t := by
  have hapart : ∀ j, j ≠ i → List.Disjoint (addresses nodes') (addresses (r.nodes j)) := by
    intro j hj a ha ha'
    rcases hnew a ha with hold | hfresh
    · exact h.disjoint j i hj ha' hold
    · exact h.allocated ha' hfresh
  have hsame : ∀ j, j ≠ i → ∀ a ∈ addresses (r.nodes j), heap' a = s.heap a := fun j hj a ha =>
    hframe a (fun hi => h.disjoint j i hj ha hi) fun hi => hapart j hj hi ha
  refine ⟨⟨fun j nodes hr => ?_, fun j k hjk => ?_⟩, fun j hj => ⟨?_, hsame j hj⟩⟩
  · by_cases hj : j = i
    · subst hj
      rw [Function.update_self] at hr
      cases hr
      exact ⟨l', Function.update_self _ _ _, hl'⟩
    · rw [Function.update_of_ne hj] at hr
      obtain ⟨l, hl, hwf⟩ := h.wellFormed j nodes hr
      refine ⟨l, (Function.update_of_ne hj _ _).trans hl, hwf.congr ?_⟩
      rw [← Sequences.nodes_of_some hr]
      exact hsame j hj
  · rw [Sequences.nodes_update, Sequences.nodes_update]
    split_ifs with hj hk hk
    · exact absurd (hj.trans hk.symm) hjk
    · exact hapart k hk
    · exact fun a ha ha' => hapart j hj ha' ha
    · exact h.disjoint j k hjk
  · exact Function.update_of_ne hj _ _

/-- The `struct list` of a list goes. -/
theorem Represents.forget (h : s.Represents r) (i : ι) :
    (⟨s.heap, Function.update s.lists i none⟩ : ListStore ι A D).Represents
      (Function.update r i none) := by
  refine ⟨fun j nodes hr => ?_, fun j k hjk => ?_⟩
  · by_cases hj : j = i
    · subst hj
      rw [Function.update_self] at hr
      cases hr
    · rw [Function.update_of_ne hj] at hr
      obtain ⟨l, hl, hwf⟩ := h.wellFormed j nodes hr
      exact ⟨l, (Function.update_of_ne hj _ _).trans hl, hwf⟩
  · rw [Sequences.nodes_update, Sequences.nodes_update]
    split_ifs
    · simp
    · simp
    · simp
    · exact h.disjoint j k hjk

/-- The same where an operation of the list brings the change about, and frees what
leaves the list. -/
theorem Represents.modify (h : s.Represents r) (hr : r i = some nodes)
    {op : Heap A (Option D) → StructList A → Option (Heap A (Option D) × StructList A)}
    (hop : ∀ l : StructList A, l.WellFormed s.heap nodes → ∃ heap' l',
      op s.heap l = some (heap', l') ∧ l'.WellFormed heap' nodes' ∧
        (∀ a ∈ addresses nodes', a ∈ addresses nodes ∨ s.heap a = none) ∧
        (∀ a ∈ addresses nodes, a ∉ addresses nodes' → heap' a = none) ∧
        ∀ a, a ∉ addresses nodes → a ∉ addresses nodes' → heap' a = s.heap a) :
    ∃ t, s.modify i op = some t ∧ t.Represents (Function.update r i (some nodes')) ∧
      SameElsewhere r i s t ∧
      Confined r (Function.update r i (some nodes')) s.heap t.heap := by
  obtain ⟨l, hl, hwf⟩ := h.wellFormed i nodes hr
  obtain ⟨heap', l', heq, hwf', hnew, hfreed, hframe⟩ := hop l hwf
  have hnodes := Sequences.nodes_of_some hr
  have hconfined : Confined r (Function.update r i (some nodes')) s.heap heap' :=
    .update hnodes hframe hfreed hnew
  rw [← hnodes] at hnew hframe
  obtain ⟨hrep, hsame⟩ := h.replace hwf' hnew hframe
  refine ⟨_, ?_, hrep, hsame, hconfined⟩
  rw [ListStore.modify, hl, Option.bind_some, heq]
  rfl

end ListStore

end Modify

/-! ## Operations -/

/-- An operation with its arguments, and with the address that `malloc` returns to it. -/
inductive ListOp (ι A D : Type*) where
  | initList (i : ι) (keysize : ℤ)
  | addElem (i : ι) (newnode : A) (elem : Option D)
  | deleteNode (i : ι) (node : A)
  | clearList (i : ι)
  | destroyList (i : ι)

/-- The list that an operation is called on. -/
def ListOp.target : ListOp ι A D → ι
  | initList i _ => i
  | addElem i _ _ => i
  | deleteNode i _ => i
  | clearList i => i
  | destroyList i => i

variable [DecidableEq ι] [DecidableEq A]

/-- `none` is a fault: an access through a null pointer, to a freed node or to a
field that is not set, or a loop that does not end. -/
def ListStore.step (s : ListStore ι A D) : ListOp ι A D → Option (ListStore ι A D)
  | .initList i keysize =>
    some { s with lists := Function.update s.lists i (some (StructList.initList keysize)) }
  | .addElem i newnode elem => s.modify i fun heap l => l.addElem heap newnode elem
  | .deleteNode i node => s.modify i fun heap l => l.deleteNode heap node
  | .clearList i => s.modify i fun heap l => (l.clearList heap).map fun r => (r.1, r.2.1)
  | .destroyList i => s.modify i fun heap l => (l.destroyList heap).map fun r => (r.1, r.2.1)

/-- The reference. -/
def Sequences.step (r : Sequences ι A D) : ListOp ι A D → Sequences ι A D
  | .initList i _ => Function.update r i (some [])
  | .addElem i newnode elem => Function.update r i (some (r.nodes i ++ [(newnode, elem)]))
  | .deleteNode i node => Function.update r i (some ((r.nodes i).eraseP fun n => n.1 = node))
  | .clearList i => Function.update r i (some [])
  | .destroyList i => Function.update r i (some [])

/-- Both machines side by side. -/
abbrev ListHistory (ι A D : Type*) := Option (ListStore ι A D) × Sequences ι A D

namespace ListHistory

def step (p : ListHistory ι A D) (op : ListOp ι A D) : ListHistory ι A D :=
  (p.1.bind fun s => s.step op, p.2.step op)

/-- No list is initialised, and the heap is arbitrary. -/
def start (heap : Heap A (Option D)) : ListHistory ι A D :=
  (some ⟨heap, fun _ => none⟩, fun _ => none)

/-- `init_list` is for fresh and for emptied lists, `delete_node` for the nodes of the
list, and `malloc` returns an address that is not in use. -/
def Legal (p : ListHistory ι A D) : ListOp ι A D → Prop
  | .initList i _ => p.2.nodes i = []
  | .addElem i newnode _ => (p.2 i).isSome ∧ (p.1.bind fun s => s.heap newnode) = none
  | .deleteNode i node => node ∈ addresses (p.2.nodes i)
  | .clearList i => (p.2 i).isSome
  | .destroyList i => (p.2 i).isSome

instance [DecidableEq D] (p : ListHistory ι A D) (op : ListOp ι A D) : Decidable (Legal p op) :=
  match op with
  | .initList i _ => inferInstanceAs (Decidable (p.2.nodes i = []))
  | .addElem i newnode _ =>
    inferInstanceAs (Decidable ((p.2 i).isSome ∧ (p.1.bind fun s => s.heap newnode) = none))
  | .deleteNode i node => inferInstanceAs (Decidable (node ∈ addresses (p.2.nodes i)))
  | .clearList i => inferInstanceAs (Decidable ((p.2 i).isSome = true))
  | .destroyList i => inferInstanceAs (Decidable ((p.2 i).isSome = true))

/-- The lists are without a fault the images of their sequences. -/
def Sound (p : ListHistory ι A D) : Prop := ∃ s, p.1 = some s ∧ s.Represents p.2

/-- The step goes through and leaves the other lists alone. -/
def Framed (p : ListHistory ι A D) (op : ListOp ι A D) : Prop :=
  ∃ s t, p.1 = some s ∧ (step p op).1 = some t ∧ ListStore.SameElsewhere p.2 op.target s t

end ListHistory

namespace ListStore.Represents

variable {s : ListStore ι A D} {r : Sequences ι A D} {i : ι}

theorem emptied (h : s.Represents r) (freeData : Bool) (hr : (r i).isSome) :
    ∃ t, (s.modify i fun heap l => (StructList.emptied freeData heap l).map
        fun r => (r.1, r.2.1)) = some t ∧
      t.Represents (Function.update r i (some [])) ∧ SameElsewhere r i s t ∧
      Confined r (Function.update r i (some [])) s.heap t.heap := by
  obtain ⟨nodes, hnodes⟩ := Option.isSome_iff_exists.mp hr
  refine h.modify hnodes fun l hl => ?_
  obtain ⟨heap', l', hrun, hwf, hfreed, hframe⟩ := hl.emptied freeData
  exact ⟨heap', l', by rw [hrun]; rfl, hwf, by simp, fun a ha _ => hfreed a ha,
    fun a ha _ => hframe a ha⟩

theorem addElem (h : s.Represents r) (hr : (r i).isSome) {a : A} (ha : s.heap a = none)
    (x : Option D) :
    ∃ t, (s.modify i fun heap l => l.addElem heap a x) = some t ∧
      t.Represents (Function.update r i (some (r.nodes i ++ [(a, x)]))) ∧
      SameElsewhere r i s t ∧
      Confined r (Function.update r i (some (r.nodes i ++ [(a, x)]))) s.heap t.heap := by
  obtain ⟨nodes, hnodes⟩ := Option.isSome_iff_exists.mp hr
  rw [Sequences.nodes_of_some hnodes]
  refine h.modify hnodes fun l hl => ?_
  obtain ⟨heap', l', hrun, hwf, hframe⟩ := hl.addElem ha x
  refine ⟨heap', l', hrun, hwf, fun b hb => ?_, fun b hb hb' => ?_,
    fun b hb hb' => hframe b hb ?_⟩
  · rw [LinkedList.addresses_append, List.mem_append] at hb
    refine hb.imp_right fun hb => ?_
    rw [List.mem_singleton.mp hb]
    exact ha
  · exact absurd (by simp [hb]) hb'
  · rintro rfl
    exact hb' (by simp)

theorem deleteNode (h : s.Represents r) {before after : List (A × Option D)} {a : A}
    {x : Option D} (hr : r i = some (before ++ (a, x) :: after)) :
    ∃ t, (s.modify i fun heap l => l.deleteNode heap a) = some t ∧
      t.Represents (Function.update r i (some (before ++ after))) ∧ SameElsewhere r i s t ∧
      Confined r (Function.update r i (some (before ++ after))) s.heap t.heap := by
  refine h.modify hr fun l hl => ?_
  obtain ⟨heap', l', hrun, hwf, hfreed, hframe⟩ := hl.deleteNode
  have hnodes : ∀ b, b ∈ addresses (before ++ (a, x) :: after) ↔
      b = a ∨ b ∈ addresses (before ++ after) := fun b => by
    simp only [LinkedList.addresses_append, LinkedList.addresses_cons, List.mem_append,
      List.mem_cons]
    exact or_left_comm
  refine ⟨heap', l', hrun, hwf, fun b hb => Or.inl ((hnodes b).mpr (Or.inr hb)),
    fun b hb hb' => ?_, fun b hb hb' => hframe b hb' fun he => hb ((hnodes b).mpr (Or.inl he))⟩
  rcases (hnodes b).mp hb with rfl | hmem
  · exact hfreed
  · exact absurd hmem hb'

/-- One operation. -/
theorem step {p : ListHistory ι A D} (hs : p.1 = some s) (h : s.Represents p.2)
    (op : ListOp ι A D) (hlegal : ListHistory.Legal p op) :
    ∃ t, s.step op = some t ∧ t.Represents (p.2.step op) ∧
      SameElsewhere p.2 op.target s t := by
  cases op with
  | initList i keysize =>
    obtain ⟨hrep, hsame⟩ := h.replace (i := i) (StructList.WellFormed.initList s.heap keysize)
      (by simp) fun _ _ _ => rfl
    exact ⟨_, rfl, hrep, hsame⟩
  | addElem i newnode elem =>
    obtain ⟨hsome, hfresh⟩ := hlegal
    rw [hs, Option.bind_some] at hfresh
    obtain ⟨t, ht, hrep, hsame, -⟩ := h.addElem hsome hfresh elem
    exact ⟨t, ht, hrep, hsame⟩
  | deleteNode i node =>
    cases hnodes : p.2 i with
    | none => simp [ListHistory.Legal, Sequences.nodes, hnodes] at hlegal
    | some nodes =>
      have hmem : node ∈ addresses (p.2.nodes i) := hlegal
      rw [Sequences.nodes_of_some hnodes] at hmem
      obtain ⟨before, x, after, rfl, herase⟩ := LinkedList.eraseP_split hmem
      have hnext : p.2.step (.deleteNode i node) =
          Function.update p.2 i (some (before ++ after)) := by
        rw [Sequences.step, Sequences.nodes_of_some hnodes, herase]
      rw [hnext]
      obtain ⟨t, ht, hrep, hsame, -⟩ := h.deleteNode hnodes
      exact ⟨t, ht, hrep, hsame⟩
  | clearList i =>
    obtain ⟨t, ht, hrep, hsame, -⟩ := h.emptied false hlegal
    exact ⟨t, ht, hrep, hsame⟩
  | destroyList i =>
    obtain ⟨t, ht, hrep, hsame, -⟩ := h.emptied true hlegal
    exact ⟨t, ht, hrep, hsame⟩

end ListStore.Represents

namespace ListHistory

theorem sound_step {p : ListHistory ι A D} (h : Sound p) {op : ListOp ι A D}
    (hlegal : Legal p op) : Sound (step p op) ∧ Framed p op := by
  obtain ⟨s, hs, hrep⟩ := h
  obtain ⟨t, ht, hrep', hsame⟩ := hrep.step hs op hlegal
  have hstep : (step p op).1 = some t := by rw [step, hs, Option.bind_some, ht]
  exact ⟨⟨t, hstep, hrep'⟩, s, t, hs, hstep, hsame⟩

/-- Every legal history ends with well-formed lists that hold what their sequences
hold, and each of its steps leaves the other lists alone. -/
theorem sound_and_framed (heap : Heap A (Option D)) (ops : List (ListOp ι A D))
    (h : Runs.Along step Legal (start heap) ops) :
    Sound (Runs.run step (start heap) ops) ∧ Runs.Along step Framed (start heap) ops := by
  have hstart : Sound (start heap : ListHistory ι A D) := ⟨_, rfl, .start heap⟩
  have hkeep : ∀ (p : ListHistory ι A D) op, Sound p → Legal p op → Sound (step p op) :=
    fun p op hp hlegal => (sound_step hp hlegal).1
  exact ⟨Runs.run_invariant hkeep hstart h,
    Runs.along_of_invariant hkeep (fun p op hp hlegal => (sound_step hp hlegal).2) hstart h⟩

/-- Two lists that take turns. `delete_node` meets a middle, a first, a last and an only
node, and freed addresses come back. -/
def turns : List (ListOp Bool ℕ ℕ) :=
  [.initList false 4, .initList true 4, .addElem false 10 (some 1), .addElem true 11 (some 2),
    .addElem false 12 none, .addElem false 13 (some 3), .addElem false 14 (some 4),
    .deleteNode false 12, .deleteNode false 10, .addElem true 12 (some 5), .deleteNode false 14,
    .deleteNode false 13, .destroyList true, .initList true 4, .addElem false 12 (some 6),
    .clearList false, .addElem true 12 (some 7)]

theorem sound_and_framed_turns :
    Sound (Runs.run step (start fun _ => none) turns) ∧
      Runs.Along step Framed (start fun _ => none) turns :=
  sound_and_framed _ _ (by decide +kernel)

end ListHistory

end CpuLimit
