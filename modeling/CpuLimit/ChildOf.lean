import CpuLimit.Library.Fuel
import CpuLimit.ProcessTree

/-!
# is_child_of on three platforms

The walk of `is_child_of` on a fixed process tree, for Linux, FreeBSD and Apple.
Process identifiers are finitely many, so a walk along links without cycles
ends; what it finds is compared with the ancestor relation of these links. A
process that does not exist, or that the system refuses to show, has the parent
-1 on every platform.
-/
namespace CpuLimit

open Library

namespace Os

variable (os : Os)

/-- What the system answers when asked for the parent of a process. -/
def queriedPpid (pid : Pid) : Pid :=
  match os.proc pid with
  | none => -1
  | some p => if p.readable then p.ppid else -1

/-- The loop of `is_child_of` on FreeBSD and Apple, and the comparison after it. -/
def climb (getppidOf : Pid → Pid) (parentPid : Pid) : ℕ → Pid → Option Bool
  | 0, _ => none
  | fuel + 1, childPid =>
    if 1 < childPid ∧ childPid ≠ parentPid then climb getppidOf parentPid fuel (getppidOf childPid)
    else some (childPid = parentPid)

namespace Freebsd

/-- `_getppid_of`. -/
def getppidOf (pid : Pid) : Pid := os.queriedPpid pid

/-- `_is_child_of`, which has an open descriptor. -/
def isChildOfOpen (fuel : ℕ) (childPid parentPid : Pid) : Option Bool :=
  if childPid ≤ 0 ∨ parentPid ≤ 0 ∨ childPid = parentPid then some false
  else climb (getppidOf os) parentPid fuel childPid

/-- `is_child_of`. The result is the C integer; -1 when `kvm_openfiles` fails. -/
def isChildOf (kvmOpens : Bool) (fuel : ℕ) (childPid parentPid : Pid) : Option ℤ :=
  if kvmOpens then
    (isChildOfOpen os fuel childPid parentPid).map fun answer => if answer then 1 else 0
  else some (-1)

end Freebsd

namespace Apple

/-- `getppid_of`. -/
def getppidOf (pid : Pid) : Pid := os.queriedPpid pid

/-- `is_child_of`. -/
def isChildOf (fuel : ℕ) (childPid parentPid : Pid) : Option Bool :=
  if childPid ≤ 1 ∨ parentPid ≤ 0 ∨ childPid = parentPid then some false
  else if parentPid = 1 then some true
  else climb (getppidOf os) parentPid fuel childPid

end Apple

variable {os}

/-! ## The tree that getppid_of shows -/

theorem queriedPpid_eq {pid : Pid} (h : 0 < pid) : os.queriedPpid pid = os.getppidOf pid := by
  have hpos : ¬ pid ≤ 0 := not_le.mpr h
  cases hp : os.proc pid with
  | none => simp [queriedPpid, getppidOf, hpos, hp]
  | some p => simp [queriedPpid, getppidOf, hpos, hp]

theorem finite_shownParent (os : Os) : {pid | os.shownParent pid ≠ none}.Finite := by
  refine (os.procs.map OsProcess.pid).toFinset.finite_toSet.subset fun pid hpid => ?_
  obtain ⟨parent, hparent⟩ := Option.ne_none_iff_exists'.mp hpid
  obtain ⟨hgt, hpos, hlink⟩ := shownParent_eq_some.mp hparent
  obtain ⟨-, p, hp, -⟩ := parentOf_eq_some.mp (parentOf_of_getppidOf hgt hpos hlink)
  obtain ⟨hmem, rfl⟩ := mem_of_proc hp
  simpa using ⟨p, hmem, rfl⟩

theorem parentOf_of_shownParent {pid parent : Pid} (h : os.shownParent pid = some parent) :
    os.parentOf pid = some parent := by
  obtain ⟨hgt, hpos, hlink⟩ := shownParent_eq_some.mp h
  exact parentOf_of_getppidOf hgt hpos hlink

/-- Induction from the roots of the shown tree. -/
theorem Acyclic.wellFounded (h : os.Acyclic) :
    WellFounded fun parent pid => os.shownParent pid = some parent :=
  ParentTree.wellFounded_of_acyclic os.finite_shownParent h

theorem not_ancestor_of_le (os : Os) (a : Pid) {c : Pid} (h : c ≤ 1) :
    ¬ ParentTree.Ancestor os.shownParent a c := by
  apply ParentTree.not_ancestor_of_root
  rw [shownParent, if_neg fun hc => not_lt.mpr h hc.1]

theorem not_ancestor_of_nonpos {a c : Pid} (h : a ≤ 0) :
    ¬ ParentTree.Ancestor os.shownParent a c := by
  intro ha
  cases ha with
  | single hx => exact not_lt.mpr h (shownParent_eq_some.mp hx).2.1
  | tail _ hx => exact not_lt.mpr h (shownParent_eq_some.mp hx).2.1

/-- One link up: the parent is the ancestor, or the ancestor is above the parent. -/
theorem ancestor_iff_getppidOf (os : Os) {a c : Pid} (hc : 1 < c) (ha : 0 < a) :
    ParentTree.Ancestor os.shownParent a c ↔
      os.getppidOf c = a ∨ ParentTree.Ancestor os.shownParent a (os.getppidOf c) := by
  rw [ParentTree.ancestor_iff]
  constructor
  · rintro ⟨b, hb, hab⟩
    obtain ⟨-, -, rfl⟩ := shownParent_eq_some.mp hb
    exact hab
  · rintro (hca | hanc)
    · exact ⟨a, shownParent_eq_some.mpr ⟨hc, ha, hca⟩, Or.inl rfl⟩
    · have hpos : 0 < os.getppidOf c := by
        by_contra hneg
        exact os.not_ancestor_of_le a ((not_lt.mp hneg).trans zero_le_one) hanc
      exact ⟨_, shownParent_eq_some.mpr ⟨hc, hpos, rfl⟩, Or.inr hanc⟩

/-- The entry guards of all versions refuse pairs without the relation. -/
theorem not_childOf_of_guard (hacyclic : os.Acyclic) {childPid parentPid : Pid}
    (h : childPid ≤ 1 ∨ parentPid ≤ 0 ∨ childPid = parentPid) :
    ¬ (ParentTree.Ancestor os.shownParent parentPid childPid ∨ parentPid = 1 ∧ 1 < childPid) := by
  rintro (hanc | ⟨rfl, hgt⟩)
  · rcases h with hle | hle | rfl
    · exact os.not_ancestor_of_le parentPid hle hanc
    · exact not_ancestor_of_nonpos hle hanc
    · exact hacyclic childPid hanc
  · rcases h with hle | hle | rfl
    · exact absurd hgt (not_lt.mpr hle)
    · exact absurd hle (by decide)
    · exact lt_irrefl _ hgt

open Classical

/-! ## Linux -/

/-- The Linux loop ends, and finds exactly the ancestors. The induction is along
the links; the walk stops at an ancestor, at a root, or at a process that
started before the one looked for. -/
theorem isChildOfLoop_returns (hacyclic : os.Acyclic) (hgrow : os.StartTimesGrow)
    {parentPid : Pid} (hparent : 0 < parentPid) (childPid : Pid) :
    Fuel.Returns (os.isChildOfLoop parentPid (os.getStartTime parentPid)) childPid
      (decide (ParentTree.Ancestor os.shownParent parentPid childPid)) := by
  induction childPid using hacyclic.wellFounded.induction with
  | _ childPid ih =>
    by_cases hle : childPid ≤ 1
    · rw [decide_eq_false (os.not_ancestor_of_le parentPid hle)]
      exact .stop fun fuel => by rw [isChildOfLoop, if_pos hle]
    have hgt : 1 < childPid := not_le.mp hle
    by_cases hstart : os.startedBefore childPid (os.getStartTime parentPid) = true
    · have hnot : ¬ ParentTree.Ancestor os.shownParent parentPid childPid := by
        intro hanc
        have hlinks := hanc.mono fun _ _ hlink => parentOf_of_shownParent hlink
        rw [startedBefore_of_ancestor hgrow hlinks] at hstart
        cases hstart
      rw [decide_eq_false hnot]
      exact .stop fun fuel => by rw [isChildOfLoop, if_neg hle, if_pos hstart]
    have hiff := os.ancestor_iff_getppidOf hgt hparent
    by_cases hfound : os.getppidOf childPid = parentPid
    · rw [decide_eq_true (hiff.mpr (Or.inl hfound))]
      refine .stop fun fuel => ?_
      simp only [isChildOfLoop, hle, hstart, hfound, if_true, if_false, Bool.false_eq_true]
    · have hnext : ∀ fuel, os.isChildOfLoop parentPid (os.getStartTime parentPid) (fuel + 1)
          childPid = os.isChildOfLoop parentPid (os.getStartTime parentPid) fuel
            (os.getppidOf childPid) := by
        intro fuel
        rw [isChildOfLoop, if_neg hle, if_neg hstart]
        exact if_neg hfound
      refine .step hnext ?_
      simp only [hiff, hfound, false_or]
      by_cases hpos : 0 < os.getppidOf childPid
      · exact ih _ (shownParent_eq_some.mpr ⟨hgt, hpos, rfl⟩)
      · have hroot : os.getppidOf childPid ≤ 1 := (not_lt.mp hpos).trans zero_le_one
        rw [decide_eq_false (os.not_ancestor_of_le parentPid hroot)]
        exact .stop fun fuel => by rw [isChildOfLoop, if_pos hroot]

/-- The answer for process 1 is not looked up. -/
theorem isChildOf_returns (hacyclic : os.Acyclic) (hgrow : os.StartTimesGrow)
    (childPid parentPid : Pid) :
    Fuel.Returns (fun fuel pid => os.isChildOf fuel pid parentPid) childPid
      (decide (ParentTree.Ancestor os.shownParent parentPid childPid ∨
        parentPid = 1 ∧ 1 < childPid)) := by
  by_cases hguard : childPid ≤ 1 ∨ parentPid ≤ 0 ∨ childPid = parentPid
  · rw [decide_eq_false (not_childOf_of_guard hacyclic hguard)]
    exact .stop fun fuel => by rw [isChildOf, if_pos hguard]
  have hgt : 1 < childPid := not_le.mp fun hle => hguard (Or.inl hle)
  have hpos : 0 < parentPid := not_le.mp fun hle => hguard (Or.inr (Or.inl hle))
  by_cases hone : parentPid = 1
  · rw [decide_eq_true (Or.inr ⟨hone, hgt⟩)]
    exact .stop fun fuel => by rw [isChildOf, if_neg hguard, if_pos hone]
  · simp only [hone, false_and, or_false]
    refine (isChildOfLoop_returns hacyclic hgrow hpos childPid).congr fun fuel => ?_
    rw [isChildOf, if_neg hguard, if_neg hone]

/-- For a parent other than process 1, `is_child_of` ends and says whether it is
a proper ancestor, whichever processes are gone and whichever start times cannot
be read. -/
theorem isChildOf_eq_ancestor (hacyclic : os.Acyclic) (hgrow : os.StartTimesGrow)
    {parentPid : Pid} (hparent : 1 < parentPid) (childPid : Pid) :
    ∃ answer, Fuel.Returns (fun fuel pid => os.isChildOf fuel pid parentPid) childPid answer ∧
      (answer = true ↔ ParentTree.Ancestor os.shownParent parentPid childPid) := by
  refine ⟨_, isChildOf_returns hacyclic hgrow childPid parentPid, ?_⟩
  simp [hparent.ne']

/-! ## FreeBSD and Apple -/

/-- The loop of the other platforms ends at the process that it looks for, or above
all of its ancestors. -/
theorem climb_returns (hacyclic : os.Acyclic) {parentPid : Pid} (hparent : 0 < parentPid)
    (childPid : Pid) :
    Fuel.Returns (climb os.queriedPpid parentPid) childPid
      (decide (childPid = parentPid ∨
        ParentTree.Ancestor os.shownParent parentPid childPid)) := by
  induction childPid using hacyclic.wellFounded.induction with
  | _ childPid ih =>
    by_cases hfound : childPid = parentPid
    · rw [decide_eq_true (Or.inl hfound)]
      exact .stop fun fuel => by simp [climb, hfound]
    by_cases hle : childPid ≤ 1
    · have hnot := os.not_ancestor_of_le parentPid hle
      simp only [hfound, hnot, or_self]
      exact .stop fun fuel => by simp [climb, hfound, not_lt.mpr hle]
    have hgt : 1 < childPid := not_le.mp hle
    have hiff := os.ancestor_iff_getppidOf hgt hparent
    refine .step (y := os.getppidOf childPid) (fun fuel => ?_) ?_
    · rw [climb, if_pos ⟨hgt, hfound⟩, queriedPpid_eq (zero_lt_one.trans hgt)]
    simp only [hfound, false_or, hiff]
    by_cases hpos : 0 < os.getppidOf childPid
    · exact ih _ (shownParent_eq_some.mpr ⟨hgt, hpos, rfl⟩)
    · have hroot : os.getppidOf childPid ≤ 1 := (not_lt.mp hpos).trans zero_le_one
      have hne : os.getppidOf childPid ≠ parentPid := fun he => hpos (he ▸ hparent)
      have hnot := os.not_ancestor_of_le parentPid hroot
      simp only [hne, hnot, or_self]
      exact .stop fun fuel => by simp [climb, not_lt.mpr hroot, hne]

theorem Freebsd.isChildOf_returns (hacyclic : os.Acyclic) (kvmOpens : Bool)
    (childPid parentPid : Pid) :
    Fuel.Returns (fun fuel pid => (Freebsd.isChildOf os kvmOpens fuel pid parentPid).map
        fun answer => decide (answer ≠ 0)) childPid
      (decide (kvmOpens = false ∨ ParentTree.Ancestor os.shownParent parentPid childPid)) := by
  cases kvmOpens with
  | false => exact .stop fun fuel => by simp [Freebsd.isChildOf]
  | true =>
    simp only [Bool.true_eq_false, false_or]
    have htruth : ∀ answer : Option Bool,
        (answer.map fun answer => if answer then (1 : ℤ) else 0).map
          (fun answer => decide (answer ≠ 0)) = answer := by
      intro answer
      rcases answer with _ | _ | _ <;> rfl
    by_cases hguard : childPid ≤ 0 ∨ parentPid ≤ 0 ∨ childPid = parentPid
    · have hguard' : childPid ≤ 1 ∨ parentPid ≤ 0 ∨ childPid = parentPid :=
        hguard.imp_left fun hle => hle.trans zero_le_one
      rw [decide_eq_false fun hanc => not_childOf_of_guard hacyclic hguard' (Or.inl hanc)]
      exact .stop fun fuel => by
        simp [Freebsd.isChildOf, Freebsd.isChildOfOpen, hguard]
    · have hpos : 0 < parentPid := not_le.mp fun hle => hguard (Or.inr (Or.inl hle))
      have hne : childPid ≠ parentPid := fun he => hguard (Or.inr (Or.inr he))
      have hclimb := climb_returns hacyclic hpos childPid
      simp only [hne, false_or] at hclimb
      refine hclimb.congr fun fuel => ?_
      simp only [Freebsd.isChildOf, Freebsd.isChildOfOpen, if_true, if_neg hguard, htruth]
      rfl

theorem Apple.isChildOf_returns (hacyclic : os.Acyclic) (childPid parentPid : Pid) :
    Fuel.Returns (fun fuel pid => Apple.isChildOf os fuel pid parentPid) childPid
      (decide (ParentTree.Ancestor os.shownParent parentPid childPid ∨
        parentPid = 1 ∧ 1 < childPid)) := by
  by_cases hguard : childPid ≤ 1 ∨ parentPid ≤ 0 ∨ childPid = parentPid
  · rw [decide_eq_false (not_childOf_of_guard hacyclic hguard)]
    exact .stop fun fuel => by rw [Apple.isChildOf, if_pos hguard]
  have hgt : 1 < childPid := not_le.mp fun hle => hguard (Or.inl hle)
  have hpos : 0 < parentPid := not_le.mp fun hle => hguard (Or.inr (Or.inl hle))
  have hne : childPid ≠ parentPid := fun he => hguard (Or.inr (Or.inr he))
  by_cases hone : parentPid = 1
  · rw [decide_eq_true (Or.inr ⟨hone, hgt⟩)]
    exact .stop fun fuel => by rw [Apple.isChildOf, if_neg hguard, if_pos hone]
  · have hclimb := climb_returns hacyclic hpos childPid
    simp only [hne, false_or] at hclimb
    simp only [hone, false_and, or_false]
    refine hclimb.congr fun fuel => ?_
    rw [Apple.isChildOf, if_neg hguard, if_neg hone]
    rfl

/-! ## One relation -/

/-- The three versions answer, with the same truth value, and say yes only of an
ancestor. -/
def SameRelation (os : Os) (kvmOpens : Bool) (childPid parentPid : Pid) : Prop :=
  ∃ answer : Bool,
    Fuel.Returns (fun fuel pid => os.isChildOf fuel pid parentPid) childPid answer ∧
    Fuel.Returns (fun fuel pid => (Freebsd.isChildOf os kvmOpens fuel pid parentPid).map
      fun answer => decide (answer ≠ 0)) childPid answer ∧
    Fuel.Returns (fun fuel pid => Apple.isChildOf os fuel pid parentPid) childPid answer ∧
    (answer = true → ParentTree.Ancestor os.shownParent parentPid childPid)

section SameRelation

variable {kvmOpens : Bool} {childPid parentPid : Pid}

theorem SameRelation.ancestor_or (h : os.SameRelation kvmOpens childPid parentPid)
    (hacyclic : os.Acyclic) (hgrow : os.StartTimesGrow) :
    ParentTree.Ancestor os.shownParent parentPid childPid ∨
      kvmOpens = true ∧ ¬ (parentPid = 1 ∧ 1 < childPid) := by
  obtain ⟨answer, hl, hf, -, honly⟩ := h
  have hlinux := hl.unique (isChildOf_returns hacyclic hgrow childPid parentPid)
  have hfreebsd := hf.unique (Freebsd.isChildOf_returns hacyclic kvmOpens childPid parentPid)
  by_contra hnot
  obtain ⟨hanc, hcond⟩ := not_or.mp hnot
  cases kvmOpens with
  | false => exact hanc (honly (hfreebsd.trans (by simp)))
  | true =>
    have hone : parentPid = 1 ∧ 1 < childPid := by simpa using hcond
    exact hanc (honly (hlinux.trans (decide_eq_true (Or.inr hone))))

theorem SameRelation.of_ancestor_or (hacyclic : os.Acyclic) (hgrow : os.StartTimesGrow)
    (h : ParentTree.Ancestor os.shownParent parentPid childPid ∨
      kvmOpens = true ∧ ¬ (parentPid = 1 ∧ 1 < childPid)) :
    os.SameRelation kvmOpens childPid parentPid := by
  have hlinux := isChildOf_returns hacyclic hgrow childPid parentPid
  have hfreebsd := Freebsd.isChildOf_returns hacyclic kvmOpens childPid parentPid
  have happle := Apple.isChildOf_returns hacyclic childPid parentPid
  rcases h with hanc | ⟨rfl, hone⟩
  · simp only [hanc, true_or, or_true, decide_true] at hlinux hfreebsd happle
    exact ⟨true, hlinux, hfreebsd, happle, fun _ => hanc⟩
  · simp only [hone, or_false, Bool.true_eq_false, false_or] at hlinux hfreebsd happle
    exact ⟨_, hlinux, hfreebsd, happle, of_decide_eq_true⟩

end SameRelation

/-- They implement one relation exactly where the parent is an ancestor anyway, or
else `kvm_openfiles` succeeds and process 1 is not the parent that is asked for. -/
theorem sameRelation_iff (hacyclic : os.Acyclic) (hgrow : os.StartTimesGrow) (kvmOpens : Bool)
    (childPid parentPid : Pid) :
    os.SameRelation kvmOpens childPid parentPid ↔
      ParentTree.Ancestor os.shownParent parentPid childPid ∨
        kvmOpens = true ∧ ¬ (parentPid = 1 ∧ 1 < childPid) :=
  ⟨fun h => h.ancestor_or hacyclic hgrow, SameRelation.of_ancestor_or hacyclic hgrow⟩

/-! ## A container -/

/-- Parents with smaller identifiers make no cycle. -/
theorem acyclic_of_procs (h : ∀ p ∈ os.procs, p.ppid < p.pid) : os.Acyclic := by
  refine ParentTree.acyclic_of_lt fun pid parent hparent => ?_
  obtain ⟨-, p, hp, rfl⟩ := parentOf_eq_some.mp (parentOf_of_shownParent hparent)
  obtain ⟨hmem, rfl⟩ := mem_of_proc hp
  exact h p hmem

/-- Process 7 was started from outside of the container, so its parent is shown as
0. The start time of its child 9 cannot be read. -/
def containerOs : Os where
  procs := [⟨1, 0, false, ⟨0, 0⟩, true, true, true, none⟩,
    ⟨7, 0, false, ⟨3, 0⟩, true, true, true, none⟩,
    ⟨8, 7, false, ⟨3, 0⟩, true, true, true, none⟩,
    ⟨9, 8, false, ⟨5, 0⟩, true, false, true, none⟩]
  procOpens := true
  quitFlag := false

theorem acyclic_containerOs : containerOs.Acyclic := acyclic_of_procs (by decide)

theorem startTimesGrow_containerOs : containerOs.StartTimesGrow :=
  startTimesGrow_of_procs (by decide)

theorem isChildOf_eq_ancestor_containerOs :
    ∃ answer, Fuel.Returns (fun fuel pid => containerOs.isChildOf fuel pid 7) 9 answer ∧
      (answer = true ↔ ParentTree.Ancestor containerOs.shownParent 7 9) :=
  isChildOf_eq_ancestor acyclic_containerOs startTimesGrow_containerOs (by decide) 9

theorem sameRelation_iff_containerOs :
    containerOs.SameRelation true 9 7 :=
  (sameRelation_iff acyclic_containerOs startTimesGrow_containerOs true 9 7).mpr
    (Or.inr ⟨rfl, by decide⟩)

/-- Process 1 is a parent of process 7 for Linux and Apple only, and without
`kvm_openfiles` process 9 is a parent of process 7 for FreeBSD only. -/
theorem not_sameRelation_containerOs :
    ¬ containerOs.SameRelation true 7 1 ∧ ¬ containerOs.SameRelation false 7 9 := by
  have hroot : ∀ a, ¬ ParentTree.Ancestor containerOs.shownParent a 7 := fun a =>
    ParentTree.not_ancestor_of_root (by decide)
  constructor
  · intro h
    rcases h.ancestor_or acyclic_containerOs startTimesGrow_containerOs with hanc | ⟨-, hone⟩
    · exact hroot 1 hanc
    · exact hone (by decide)
  · intro h
    rcases h.ancestor_or acyclic_containerOs startTimesGrow_containerOs with hanc | ⟨hopens, -⟩
    · exact hroot 9 hanc
    · cases hopens

end Os

end CpuLimit
