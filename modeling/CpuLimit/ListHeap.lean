import CpuLimit.Library.LinkedList
import CpuLimit.Library.Runs
import Mathlib.Data.Int.Notation

/-!
# The lists of list.c on a heap

`struct list` and `struct list_node` with their links. Every access goes through
the heap of nodes and is refused when it follows a null pointer or reaches a
freed node. `malloc` answers with an address that is an argument here, and data
pointers are opaque: only `destroy_list` does something with them, it frees
those that are not null.
-/
namespace CpuLimit

open Library
open Library.LinkedList (Node Heap Segment Visits addresses storeNext storePrevious)

variable {ι A D : Type*}

/-- `struct list`. The counter is an integer without its bound. -/
structure StructList (A : Type*) where
  first : Option A
  last : Option A
  keysize : ℤ
  count : ℤ
  deriving DecidableEq

namespace StructList

section Operations

variable [DecidableEq A]

def initList (keysize : ℤ) : StructList A := ⟨none, none, keysize, 0⟩

/-- `add_elem`, for the address that `malloc` returned. -/
def addElem (heap : Heap A (Option D)) (l : StructList A) (newnode : A) (elem : Option D) :
    Option (Heap A (Option D) × StructList A) :=
  let heap := LinkedList.allocate heap newnode ⟨elem, l.last, none⟩
  if l.count = 0 then
    some (heap, { l with first := some newnode, last := some newnode, count := l.count + 1 })
  else do
    let heap ← storeNext heap l.last (some newnode)
    some (heap, { l with last := some newnode, count := l.count + 1 })

/-- The four cases of `delete_node`. -/
def unlink (heap : Heap A (Option D)) (l : StructList A) (node : A) :
    Option (Heap A (Option D) × StructList A) :=
  if l.count = 1 then some (heap, { l with first := none, last := none })
  else if some node = l.first then do
    let this ← heap node
    let heap ← storePrevious heap this.next none
    let this ← heap node
    some (heap, { l with first := this.next })
  else if some node = l.last then do
    let this ← heap node
    let heap ← storeNext heap this.previous none
    let this ← heap node
    some (heap, { l with last := this.previous })
  else do
    let this ← heap node
    let heap ← storeNext heap this.previous this.next
    let this ← heap node
    let heap ← storePrevious heap this.next this.previous
    some (heap, l)

def deleteNode (heap : Heap A (Option D)) (l : StructList A) (node : A) :
    Option (Heap A (Option D) × StructList A) := do
  let (heap, l) ← unlink heap l node
  let heap ← LinkedList.free heap node
  some (heap, { l with count := l.count - 1 })

/-- The loop of `clear_list` and `destroy_list`. The second of them also frees
the data of each node. The last component collects the data freed. -/
def freeNodes (freeData : Bool) :
    ℕ → Heap A (Option D) → StructList A → Option (Heap A (Option D) × StructList A × List D)
  | 0, _, _ => none
  | fuel + 1, heap, l =>
    match l.first with
    | none => some (heap, l, [])
    | some tmp => do
      let node ← heap tmp
      let heap ← LinkedList.free heap tmp
      let (heap, l, freed) ← freeNodes freeData fuel heap { l with first := node.next }
      some (heap, l, (if freeData then node.data.toList else []) ++ freed)

/-- A list that is longer than its counter says runs out of fuel. -/
def emptied (freeData : Bool) (heap : Heap A (Option D)) (l : StructList A) :
    Option (Heap A (Option D) × StructList A × List D) := do
  let (heap, l, freed) ← freeNodes freeData (l.count.toNat + 1) heap l
  some (heap, { l with last := none, count := 0 }, freed)

def clearList (heap : Heap A (Option D)) (l : StructList A) :
    Option (Heap A (Option D) × StructList A × List D) := emptied false heap l

def destroyList (heap : Heap A (Option D)) (l : StructList A) :
    Option (Heap A (Option D) × StructList A × List D) := emptied true heap l

end Operations

/-- The list consists of these nodes: the walks from both ends pass them and
nothing else, no node comes twice, and the end pointers and the counter agree. -/
structure WellFormed (heap : Heap A (Option D)) (l : StructList A)
    (nodes : List (A × Option D)) : Prop where
  forward : Visits Node.next heap l.first nodes
  backward : Visits Node.previous heap l.last nodes.reverse
  distinct : (addresses nodes).Nodup
  count_eq : l.count = nodes.length
  last_eq : l.last = LinkedList.last nodes
  first_null : l.first = none ↔ l.count = 0
  last_null : l.last = none ↔ l.count = 0

/-- The form in which the operations use it. -/
theorem wellFormed_iff {heap : Heap A (Option D)} {l : StructList A}
    {nodes : List (A × Option D)} :
    WellFormed heap l nodes ↔
      Segment heap none nodes none ∧ (addresses nodes).Nodup ∧
        l.first = LinkedList.first nodes ∧ l.last = LinkedList.last nodes ∧
        l.count = nodes.length := by
  constructor
  · intro h
    have hfirst := h.forward.start
    refine ⟨LinkedList.segment_iff_visits.mpr ⟨hfirst ▸ h.forward, h.last_eq ▸ h.backward⟩,
      h.distinct, hfirst, h.last_eq, h.count_eq⟩
  · rintro ⟨hlinks, hdistinct, hfirst, hlast, hcount⟩
    obtain ⟨hforward, hbackward⟩ := LinkedList.segment_iff_visits.mp hlinks
    have hnull : l.count = 0 ↔ nodes = [] := by
      rw [hcount, Int.natCast_eq_zero, List.length_eq_zero_iff]
    refine ⟨hfirst ▸ hforward, hlast ▸ hbackward, hdistinct, hcount, hlast, ?_, ?_⟩
    · rw [hfirst, LinkedList.first_eq_none_iff, hnull]
    · rw [hlast, LinkedList.last_eq_none_iff, hnull]

namespace WellFormed

variable {heap heap' : Heap A (Option D)} {l : StructList A}
  {nodes before after : List (A × Option D)}
  {a : A} {x : Option D}

theorem links (h : WellFormed heap l nodes) : Segment heap none nodes none :=
  (wellFormed_iff.mp h).1

theorem first_eq (h : WellFormed heap l nodes) : l.first = LinkedList.first nodes :=
  (wellFormed_iff.mp h).2.2.1

/-- A list does not notice what happens to other nodes. -/
theorem congr (h : WellFormed heap l nodes) (hagree : ∀ a ∈ addresses nodes, heap' a = heap a) :
    WellFormed heap' l nodes :=
  wellFormed_iff.mpr ⟨h.links.congr hagree, h.distinct, h.first_eq, h.last_eq, h.count_eq⟩

theorem initList (heap : Heap A (Option D)) (keysize : ℤ) :
    WellFormed heap (StructList.initList keysize) [] :=
  wellFormed_iff.mpr ⟨trivial, List.nodup_nil, rfl, rfl, rfl⟩

variable [DecidableEq A]

theorem addElem (h : WellFormed heap l nodes) (ha : heap a = none) (x : Option D) :
    ∃ heap' l', l.addElem heap a x = some (heap', l') ∧
      WellFormed heap' l' (nodes ++ [(a, x)]) ∧
      ∀ b, b ∉ addresses nodes → b ≠ a → heap' b = heap b := by
  have hfresh : a ∉ addresses nodes := h.links.notMem ha
  have hdistinct : (addresses (nodes ++ [(a, x)])).Nodup := by
    rw [LinkedList.nodup_middle, List.append_nil]
    exact ⟨hfresh, h.distinct⟩
  have hcount : l.count + 1 = ((nodes ++ [(a, x)]).length : ℤ) := by
    rw [h.count_eq, List.length_append]
    rfl
  rw [StructList.addElem]
  rcases List.eq_nil_or_concat' nodes with rfl | ⟨init, ⟨c, y⟩, rfl⟩
  · have hzero : l.count = 0 := h.count_eq
    rw [if_pos hzero]
    refine ⟨_, _, rfl, wellFormed_iff.mpr ⟨⟨?_, trivial⟩, hdistinct, rfl, rfl, hcount⟩,
      fun b _ hb => Function.update_of_ne hb _ _⟩
    rw [LinkedList.allocate, Function.update_self, h.last_eq]
    rfl
  · have hne : l.count ≠ 0 := by
      rw [h.count_eq, List.length_append]
      exact Int.natCast_ne_zero.mpr (Nat.succ_ne_zero _)
    have hc : l.last = some c := by
      rw [h.last_eq, LinkedList.last_append]
      rfl
    have hinit : c ∉ addresses init := by
      have hnodup := (LinkedList.nodup_middle.mp h.distinct).1
      rwa [List.append_nil] at hnodup
    obtain ⟨heap', hstore, hseg, hframe⟩ :=
      (h.links.update_of_notMem hfresh (some ⟨x, some c, none⟩)).storeNext hinit (some a)
    rw [if_neg hne, LinkedList.allocate, hc, hstore]
    have hac : a ≠ c := fun he => hfresh (by simp [he])
    refine ⟨heap', _, rfl, wellFormed_iff.mpr ⟨?_, hdistinct, ?_, ?_, hcount⟩, fun b hb hba => ?_⟩
    · rw [LinkedList.segment_append]
      refine ⟨hseg, ?_, trivial⟩
      rw [hframe a hac, Function.update_self, LinkedList.last_append]
      rfl
    · rw [LinkedList.first_append_of_ne_nil (by simp), ← h.first_eq]
    · rw [LinkedList.last_append]
      rfl
    · have hbc : b ≠ c := fun he => hb (by simp [he])
      rw [hframe b hbc, Function.update_of_ne hba]

end WellFormed

/-- What the four cases of `delete_node` have in common: the other nodes are
linked to each other, and only they were written to. -/
structure Unlinked (heap : Heap A (Option D)) (l : StructList A) (rest : List (A × Option D))
    (heap' : Heap A (Option D)) (l' : StructList A) : Prop where
  links : Segment heap' none rest none
  first_eq : l'.first = LinkedList.first rest
  last_eq : l'.last = LinkedList.last rest
  count_eq : l'.count = l.count
  frame : ∀ b, b ∉ addresses rest → heap' b = heap b

namespace WellFormed

variable {heap : Heap A (Option D)} {l : StructList A} {before after : List (A × Option D)}
  {a c : A} {x y : Option D}

theorem cell_eq (h : WellFormed heap l (before ++ (a, x) :: after)) :
    heap a = some ⟨x, LinkedList.last before, LinkedList.first after⟩ := by
  have hcell := (LinkedList.segment_append.mp h.links).2.1
  rwa [Option.or_none, Option.or_none] at hcell

theorem segment_before (h : WellFormed heap l (before ++ (a, x) :: after)) :
    Segment heap none before (some a) :=
  (LinkedList.segment_append.mp h.links).1

theorem segment_after (h : WellFormed heap l (before ++ (a, x) :: after)) :
    Segment heap (some a) after none :=
  (LinkedList.segment_append.mp h.links).2.2

theorem notMem (h : WellFormed heap l (before ++ (a, x) :: after)) :
    a ∉ addresses (before ++ after) :=
  (LinkedList.nodup_middle.mp h.distinct).1

theorem first_eq_of_before (h : WellFormed heap l (before ++ (a, x) :: after))
    (hb : before ≠ []) : l.first = LinkedList.first (before ++ after) := by
  rw [h.first_eq, LinkedList.first_append_of_ne_nil hb, LinkedList.first_append_of_ne_nil hb]

theorem last_eq_of_after (h : WellFormed heap l (before ++ (a, x) :: after))
    (ha : after ≠ []) : l.last = LinkedList.last (before ++ after) := by
  rw [h.last_eq, List.append_cons, LinkedList.last_append_of_ne_nil _ ha,
    LinkedList.last_append_of_ne_nil _ ha]

theorem ne_first (h : WellFormed heap l (before ++ (a, x) :: after)) (hb : before ≠ []) :
    some a ≠ l.first := by
  rw [h.first_eq_of_before hb]
  exact fun he => h.notMem (LinkedList.mem_of_first he.symm)

theorem ne_last (h : WellFormed heap l (before ++ (a, x) :: after)) (ha : after ≠ []) :
    some a ≠ l.last := by
  rw [h.last_eq_of_after ha]
  exact fun he => h.notMem (LinkedList.mem_of_last he.symm)

theorem count_ne_one (h : WellFormed heap l (before ++ (a, x) :: after))
    (hne : before ++ after ≠ []) : l.count ≠ 1 := by
  have hpos := List.length_pos_iff.mpr hne
  rw [List.length_append] at hpos
  rw [h.count_eq, List.length_append, List.length_cons]
  omega

section Unlink

variable [DecidableEq A]

/-- The only node has nothing to repair. -/
theorem unlink_only (h : WellFormed heap l [(a, x)]) :
    ∃ heap' l', l.unlink heap a = some (heap', l') ∧ Unlinked heap l [] heap' l' := by
  have hcount : l.count = 1 := h.count_eq
  refine ⟨heap, { l with first := none, last := none }, ?_, trivial, rfl, rfl, rfl, fun _ _ => rfl⟩
  rw [StructList.unlink, if_pos hcount]

/-- The first of several nodes: its successor becomes the first. -/
theorem unlink_first (h : WellFormed heap l ([] ++ (a, x) :: (c, y) :: after)) :
    ∃ heap' l', l.unlink heap a = some (heap', l') ∧
      Unlinked heap l ((c, y) :: after) heap' l' := by
  have hcount : l.count ≠ 1 := h.count_ne_one (List.cons_ne_nil _ _)
  have hfirst : some a = l.first := h.first_eq.symm
  have hcell : heap a = some ⟨x, none, some c⟩ := h.cell_eq
  have hc : c ∉ addresses after := (List.nodup_cons.mp h.distinct.of_cons).1
  have hac : a ≠ c := fun he => h.notMem (by simp [he])
  obtain ⟨heap', hstore, hlinks, hframe⟩ := h.segment_after.storePrevious hc none
  have hcell' : heap' a = some ⟨x, none, some c⟩ := (hframe a hac).trans hcell
  refine ⟨heap', { l with first := some c }, ?_, hlinks, rfl,
    h.last_eq_of_after (List.cons_ne_nil _ _), rfl, fun b hb => hframe b ?_⟩
  · simp [StructList.unlink, hcount, ← hfirst, hcell, hstore, hcell']
  · rintro rfl
    exact hb (by simp)

/-- The last of several nodes: its predecessor becomes the last. -/
theorem unlink_last (h : WellFormed heap l ((before ++ [(c, y)]) ++ [(a, x)])) :
    ∃ heap' l', l.unlink heap a = some (heap', l') ∧
      Unlinked heap l (before ++ [(c, y)]) heap' l' := by
  have hcount : l.count ≠ 1 := h.count_ne_one (by simp)
  have hfirst : some a ≠ l.first := h.ne_first (by simp)
  have hlast : some a = l.last := by
    rw [h.last_eq, LinkedList.last_append]
    rfl
  have hcell : heap a = some ⟨x, some c, none⟩ := by
    rw [h.cell_eq, LinkedList.last_append]
    rfl
  have hrest := (LinkedList.nodup_middle.mp h.distinct).2
  rw [List.append_nil] at hrest
  have hc : c ∉ addresses before := by simpa using (LinkedList.nodup_middle.mp hrest).1
  have hac : a ≠ c := fun he => h.notMem (by simp [he])
  obtain ⟨heap', hstore, hlinks, hframe⟩ := h.segment_before.storeNext hc none
  have hcell' : heap' a = some ⟨x, some c, none⟩ := (hframe a hac).trans hcell
  have hfirst' := h.first_eq_of_before (by simp)
  rw [List.append_nil] at hfirst'
  refine ⟨heap', { l with last := some c }, ?_, hlinks, hfirst', ?_, rfl,
    fun b hb => hframe b ?_⟩
  · simp [StructList.unlink, hcount, hfirst, ← hlast, hcell, hstore, hcell']
  · rw [LinkedList.last_append]
    rfl
  · rintro rfl
    exact hb (by simp)

/-- A node in the middle: its neighbours become neighbours of each other. -/
theorem unlink_middle {d : A} {z : Option D}
    (h : WellFormed heap l ((before ++ [(c, y)]) ++ (a, x) :: (d, z) :: after)) :
    ∃ heap' l', l.unlink heap a = some (heap', l') ∧
      Unlinked heap l ((before ++ [(c, y)]) ++ (d, z) :: after) heap' l' := by
  have hcount : l.count ≠ 1 := h.count_ne_one (by simp)
  have hfirst : some a ≠ l.first := h.ne_first (by simp)
  have hlast : some a ≠ l.last := h.ne_last (by simp)
  have hcell : heap a = some ⟨x, some c, some d⟩ := by
    rw [h.cell_eq, LinkedList.last_append]
    rfl
  obtain ⟨heap₁, heap₂, hnext, hsame, hprevious, hlinks, hframe⟩ := h.links.bypass h.distinct
  refine ⟨heap₂, l, ?_, hlinks, h.first_eq_of_before (by simp), h.last_eq_of_after (by simp), rfl,
    fun b hb => hframe b ?_ ?_⟩
  · simp [StructList.unlink, hcount, hfirst, hlast, hcell, hnext, hsame, hprevious]
  · rintro rfl
    exact hb (by simp)
  · rintro rfl
    exact hb (by simp)

/-- The cases follow the position of the node. -/
theorem unlink (h : WellFormed heap l (before ++ (a, x) :: after)) :
    ∃ heap' l', l.unlink heap a = some (heap', l') ∧
      Unlinked heap l (before ++ after) heap' l' := by
  rcases List.eq_nil_or_concat' before with rfl | ⟨before, ⟨c, y⟩, rfl⟩
  · cases after with
    | nil => exact h.unlink_only
    | cons node after => exact h.unlink_first
  · cases after with
    | nil =>
      rw [List.append_nil]
      exact h.unlink_last
    | cons node after => exact h.unlink_middle

/-- `delete_node` takes the node out of its position. -/
theorem deleteNode (h : WellFormed heap l (before ++ (a, x) :: after)) :
    ∃ heap' l', l.deleteNode heap a = some (heap', l') ∧ WellFormed heap' l' (before ++ after) ∧
      heap' a = none ∧ ∀ b, b ∉ addresses (before ++ after) → b ≠ a → heap' b = heap b := by
  obtain ⟨heap', l', hunlink, hrest⟩ := h.unlink
  have hcell : heap' a = heap a := hrest.frame a h.notMem
  refine ⟨Function.update heap' a none, { l' with count := l'.count - 1 }, ?_,
    wellFormed_iff.mpr ⟨hrest.links.update_of_notMem h.notMem _,
      (LinkedList.nodup_middle.mp h.distinct).2, hrest.first_eq, hrest.last_eq, ?_⟩,
    Function.update_self _ _ _, fun b hb hba => ?_⟩
  · simp [StructList.deleteNode, hunlink, LinkedList.free, hcell, h.cell_eq]
  · show l'.count - 1 = _
    rw [hrest.count_eq, h.count_eq, List.length_append, List.length_append, List.length_cons]
    omega
  · rw [Function.update_of_ne hba, hrest.frame b hb]

end Unlink

section Emptied

variable [DecidableEq A] {nodes : List (A × Option D)}

/-- The loop frees the nodes from the first to the last and touches no others. -/
theorem freeNodes {p : Option A} (freeData : Bool) (last : Option A) (keysize count : ℤ)
    (h : Segment heap p nodes none) (hdistinct : (addresses nodes).Nodup) {fuel : ℕ}
    (hfuel : nodes.length < fuel) :
    ∃ heap', StructList.freeNodes freeData fuel heap
        ⟨LinkedList.first nodes, last, keysize, count⟩ =
          some (heap', ⟨none, last, keysize, count⟩,
            if freeData then nodes.filterMap Prod.snd else []) ∧
      (∀ b ∈ addresses nodes, heap' b = none) ∧ ∀ b, b ∉ addresses nodes → heap' b = heap b := by
  induction nodes generalizing heap p fuel with
  | nil =>
    cases fuel with
    | zero => cases hfuel
    | succ fuel => exact ⟨heap, by simp [StructList.freeNodes], by simp, fun _ _ => rfl⟩
  | cons node nodes ih =>
    obtain ⟨a, x⟩ := node
    cases fuel with
    | zero => cases hfuel
    | succ fuel =>
      obtain ⟨ha, hrest⟩ := List.nodup_cons.mp hdistinct
      have hcell := h.1
      rw [Option.or_none] at hcell
      obtain ⟨heap₁, hfree, hseg, hnone, hframe⟩ := h.free ha
      obtain ⟨heap', hloop, hfreed, hframe'⟩ := ih hseg hrest (Nat.lt_of_succ_lt_succ hfuel)
      refine ⟨heap', ?_, fun b hb => ?_, fun b hb => ?_⟩
      · cases x <;> cases freeData <;> simp [StructList.freeNodes, hcell, hfree, hloop]
      · rcases List.mem_cons.mp hb with rfl | hb
        · rw [hframe' _ ha, hnone]
        · exact hfreed b hb
      · rw [LinkedList.addresses_cons, List.mem_cons, not_or] at hb
        rw [hframe' b hb.2, hframe b hb.1]

/-- An emptied list has no nodes, and those that it had are freed. -/
theorem emptied (h : WellFormed heap l nodes) (freeData : Bool) :
    ∃ heap' l', StructList.emptied freeData heap l =
        some (heap', l', if freeData then nodes.filterMap Prod.snd else []) ∧
      WellFormed heap' l' [] ∧
      (∀ b ∈ addresses nodes, heap' b = none) ∧ ∀ b, b ∉ addresses nodes → heap' b = heap b := by
  obtain ⟨heap', hloop, hfreed, hframe⟩ := freeNodes freeData l.last l.keysize l.count h.links
    h.distinct (Nat.lt_succ_self nodes.length)
  refine ⟨heap', ⟨none, none, l.keysize, 0⟩, ?_,
    wellFormed_iff.mpr ⟨trivial, List.nodup_nil, rfl, rfl, rfl⟩, hfreed, hframe⟩
  have hfuel : l.count.toNat = nodes.length := by rw [h.count_eq, Int.toNat_natCast]
  have hl : l = ⟨LinkedList.first nodes, l.last, l.keysize, l.count⟩ := by rw [← h.first_eq]
  rw [StructList.emptied, hfuel, hl, Option.bind_eq_bind, hloop]
  rfl

end Emptied

end WellFormed

end StructList

end CpuLimit
