import CpuLimit.Library.ParentTree
import CpuLimit.Library.Runs
import CpuLimit.ProcessIterator

/-!
# The process tree

Parent links between processes, how they change while processes come and go, and
what `is_child_of` finds out about them. The walk of `is_child_of` ends at
process 1, so process 1 and everything below it count as roots.
-/
namespace CpuLimit

open Library

namespace Os

/-- The link that `is_child_of` follows from a process. -/
def parentOf (os : Os) (pid : Pid) : Option Pid :=
  if 1 < pid then (os.proc pid).map OsProcess.ppid else none

/-- Orphans have been given to process 1: every other parent is alive. -/
def Rooted (os : Os) : Prop :=
  ∀ pid p, os.proc pid = some p → p.ppid ≤ 1 ∨ os.alive p.ppid = true

/-- No process started before its parent. -/
def StartTimesGrow (os : Os) : Prop :=
  ∀ pid p q, os.proc pid = some p → os.proc p.ppid = some q →
    earlierThan p.startTime q.startTime = false

/-- The parent that `getppid_of` shows, if it is a process. -/
def shownParent (os : Os) (pid : Pid) : Option Pid :=
  if 1 < pid ∧ 0 < os.getppidOf pid then some (os.getppidOf pid) else none

/-- The links that `getppid_of` shows have no cycle. -/
def Acyclic (os : Os) : Prop := ∀ pid, ¬ ParentTree.Ancestor os.shownParent pid pid

variable {os os' : Os}

theorem shownParent_eq_some {pid parent : Pid} : os.shownParent pid = some parent ↔
    1 < pid ∧ 0 < parent ∧ os.getppidOf pid = parent := by
  unfold shownParent
  split_ifs with h
  · simp only [Option.some.injEq]
    constructor
    · rintro rfl
      exact ⟨h.1, h.2, rfl⟩
    · exact fun hp => hp.2.2
  · simp only [false_iff, not_and]
    rintro hgt hpos rfl
    exact h ⟨hgt, hpos⟩

theorem parentOf_eq_some {pid parent : Pid} : os.parentOf pid = some parent ↔
    1 < pid ∧ ∃ p, os.proc pid = some p ∧ p.ppid = parent := by
  unfold parentOf
  split_ifs with h
  · simp [h]
  · simp [h]

theorem rooted_of_procs {os : Os} (h : ∀ p ∈ os.procs, p.ppid ≤ 1 ∨ os.alive p.ppid = true) :
    os.Rooted :=
  fun _ p hp => h p (mem_of_proc hp).1

theorem startTimesGrow_of_procs {os : Os} (h : ∀ p ∈ os.procs, ∀ q ∈ os.procs,
    q.pid = p.ppid → earlierThan p.startTime q.startTime = false) : os.StartTimesGrow :=
  fun _ p q hp hq => h p (mem_of_proc hp).1 q (mem_of_proc hq).1 (mem_of_proc hq).2

theorem parentOf_of_le {pid : Pid} (h : pid ≤ 1) : os.parentOf pid = none := by
  rw [parentOf, if_neg (not_lt.mpr h)]

/-- An ancestor is process 1 or alive. -/
theorem alive_of_ancestor (h : os.Rooted) {a c : Pid}
    (ha : ParentTree.Ancestor os.parentOf a c) : a ≤ 1 ∨ os.alive a = true := by
  have hlink : ∀ x, os.parentOf x = some a → a ≤ 1 ∨ os.alive a = true := by
    intro x hx
    obtain ⟨-, p, hp, rfl⟩ := parentOf_eq_some.mp hx
    exact h x p hp
  cases ha with
  | single hx => exact hlink _ hx
  | tail _ hx => exact hlink _ hx

/-! ## The tree in time -/

theorem envStep_alive {event : EnvEvent} (h : os.envStep event = some os') {pid : Pid}
    (ha : os.alive pid = true) (hexit : event ≠ .exit pid) : os'.alive pid = true := by
  obtain ⟨p, hp, hz⟩ := alive_iff.mp ha
  have hreap : event ≠ .reap pid := by
    rintro rfl
    simpa [EnvEvent.Possible, hp, hz] using (envStep_spec h).1
  obtain ⟨p', hp', hkeeps⟩ := envStep_forth h hp hreap
  have hpid : p.pid = pid := (mem_of_proc hp).2
  exact alive_iff.mpr ⟨p', hp', (hkeeps.alive (hpid ▸ hexit)).trans hz⟩

/-- A link after an event leads to process 1, or is an old one, or is that of a
new process to a living parent. No link leads to a process that just exited. -/
theorem envStep_ppid {event : EnvEvent} (h : os.envStep event = some os') {pid : Pid}
    {p' : OsProcess} (hp' : os'.proc pid = some p') :
    p'.ppid ≤ 1 ∨ event ≠ .exit p'.ppid ∧
      ((∃ p, os.proc pid = some p ∧ p.ppid = p'.ppid) ∨
        os.proc pid = none ∧ os.alive p'.ppid = true) := by
  rcases envStep_back h hp' with ⟨p, hp, hkeeps⟩ | ⟨hnone, parent, startTime, permitted, rfl, rfl⟩
  · rcases hkeeps.ppid with hone | ⟨hsame, hexit⟩
    · exact Or.inl hone.le
    · exact Or.inr ⟨hsame ▸ hexit, Or.inl ⟨p, hp, hsame.symm⟩⟩
  · exact Or.inr ⟨by simp, Or.inr ⟨hnone, (envStep_spec h).1.1⟩⟩

theorem Rooted.envStep (hr : os.Rooted) {event : EnvEvent} (h : os.envStep event = some os') :
    os'.Rooted := by
  intro pid p' hp'
  rcases envStep_ppid h hp' with hle | ⟨hexit, ⟨p, hp, hpp⟩ | ⟨-, halive⟩⟩
  · exact Or.inl hle
  · rcases hr pid p hp with hle | halive
    · exact Or.inl (hpp ▸ hle)
    · exact Or.inr (envStep_alive h (hpp ▸ halive) hexit)
  · exact Or.inr (envStep_alive h halive hexit)

/-- While a process lives it gets no new ancestor but process 1. -/
theorem ancestor_of_envStep (hr : os.Rooted) {event : EnvEvent} (h : os.envStep event = some os')
    {a c : Pid} (hc : os.alive c = true) (ha : ParentTree.Ancestor os'.parentOf a c) :
    a ≤ 1 ∨ ParentTree.Ancestor os.parentOf a c := by
  refine ParentTree.Ancestor.of_links (fun x => os.alive x = true) (fun x => x ≤ 1) ?_
    (fun x hx => parentOf_of_le hx) ha hc
  intro x y hx hlink
  obtain ⟨hgt, p', hp', rfl⟩ := parentOf_eq_some.mp hlink
  obtain ⟨p, hp, -⟩ := alive_iff.mp hx
  rcases envStep_ppid h hp' with hle | ⟨-, ⟨p, hp, hpp⟩ | ⟨hnone, -⟩⟩
  · exact Or.inl hle
  · rcases hr x p hp with hle | halive
    · exact Or.inl (hpp ▸ hle)
    · exact Or.inr ⟨parentOf_eq_some.mpr ⟨hgt, p, hp, hpp⟩, hpp ▸ halive⟩
  · rw [hp] at hnone
    cases hnone

/-- The same for a process that has exited, and for a `pid` without a process, as long
as the `pid` is not given to a new process. -/
theorem ancestor_of_envStep_of_ne_fork (hr : os.Rooted) {event : EnvEvent}
    (h : os.envStep event = some os') {a c : Pid}
    (hfork : ∀ parent startTime permitted, event ≠ .fork parent c startTime permitted)
    (ha : ParentTree.Ancestor os'.parentOf a c) :
    a ≤ 1 ∨ ParentTree.Ancestor os.parentOf a c := by
  obtain ⟨b, hb, hba⟩ := ParentTree.ancestor_iff.mp ha
  by_cases hle : b ≤ 1
  · rcases hba with rfl | hba
    · exact Or.inl hle
    · exact absurd hba (ParentTree.not_ancestor_of_root (parentOf_of_le hle))
  obtain ⟨hgt, p', hp', rfl⟩ := parentOf_eq_some.mp hb
  rcases envStep_back h hp' with ⟨p, hp, hkeeps⟩ | ⟨-, parent, startTime, permitted, he, -⟩
  · have hsame := (hkeeps.ppid.resolve_left fun hone => hle hone.le).1
    have hlink : os.parentOf c = some p'.ppid := parentOf_eq_some.mpr ⟨hgt, p, hp, hsame.symm⟩
    rcases hba with rfl | hba
    · exact Or.inr (.single hlink)
    · have hparent : os.alive p'.ppid = true := hsame ▸ (hr c p hp).resolve_left (hsame ▸ hle)
      exact (ancestor_of_envStep hr h hparent hba).imp_right (.head hlink)
  · exact absurd he (hfork parent startTime permitted)

/-- The same over any number of events that spare the process. -/
theorem ancestor_of_run (hr : os.Rooted) {events : List EnvEvent}
    (h : Runs.runPartial Os.envStep os events = some os') {c : Pid} (hc : os.alive c = true)
    (hspare : ∀ e ∈ events, e ≠ .exit c) :
    os'.Rooted ∧ os'.alive c = true ∧ ∀ a, ParentTree.Ancestor os'.parentOf a c →
      a ≤ 1 ∨ ParentTree.Ancestor os.parentOf a c := by
  induction events generalizing os with
  | nil =>
    cases h
    exact ⟨hr, hc, fun a ha => Or.inr ha⟩
  | cons event events ih =>
    obtain ⟨mid, hmid, hrest⟩ := (Runs.runPartial_cons_eq_some _).mp h
    have hcm := envStep_alive hmid hc (hspare event (by simp))
    obtain ⟨hr', hc', hanc⟩ := ih (hr.envStep hmid) hrest hcm fun e he => hspare e (by simp [he])
    refine ⟨hr', hc', fun a ha => ?_⟩
    rcases hanc a ha with hle | ha
    · exact Or.inl hle
    · exact ancestor_of_envStep hr hmid hc ha

/-! ## is_child_of -/

theorem parentOf_of_getppidOf {pid parent : Pid} (hgt : 1 < pid) (hparent : 0 < parent)
    (h : os.getppidOf pid = parent) : os.parentOf pid = some parent := by
  have hne : (-1 : Pid) ≠ parent := fun he => by linarith
  have hpos : ¬ pid ≤ 0 := fun hle => by linarith
  rw [parentOf_eq_some]
  refine ⟨hgt, ?_⟩
  simp only [getppidOf, hpos, if_false] at h
  cases hp : os.proc pid with
  | none =>
    rw [hp] at h
    exact absurd h hne
  | some p =>
    rw [hp] at h
    dsimp only at h
    split_ifs at h
    · exact ⟨p, rfl, h⟩
    · exact absurd h hne

/-- The walk finds ancestors only. The induction is over the fuel. -/
theorem isChildOfLoop_sound {parentPid : Pid} (hparent : 0 < parentPid)
    {parentStart : Option Timespec} {fuel : ℕ} {childPid : Pid}
    (h : os.isChildOfLoop parentPid parentStart fuel childPid = some true) :
    1 < childPid ∧ ParentTree.Ancestor os.parentOf parentPid childPid := by
  induction fuel generalizing childPid with
  | zero => cases h
  | succ fuel ih =>
    rw [isChildOfLoop] at h
    by_cases hle : childPid ≤ 1
    · simp [hle] at h
    have hgt : 1 < childPid := not_le.mp hle
    by_cases hstart : os.startedBefore childPid parentStart = true
    · simp [hle, hstart] at h
    rw [if_neg hle, if_neg hstart] at h
    by_cases hfound : os.getppidOf childPid = parentPid
    · exact ⟨hgt, .single (parentOf_of_getppidOf hgt hparent hfound)⟩
    · rw [if_neg hfound] at h
      obtain ⟨hnext, hanc⟩ := ih h
      exact ⟨hgt, .head (parentOf_of_getppidOf hgt (lt_trans zero_lt_one hnext) rfl) hanc⟩

theorem isChildOf_sound {fuel : ℕ} {childPid parentPid : Pid}
    (h : os.isChildOf fuel childPid parentPid = some true) :
    parentPid = 1 ∨ ParentTree.Ancestor os.parentOf parentPid childPid := by
  rw [isChildOf] at h
  by_cases hguard : childPid ≤ 1 ∨ parentPid ≤ 0 ∨ childPid = parentPid
  · simp [hguard] at h
  · by_cases hone : parentPid = 1
    · exact Or.inl hone
    · rw [if_neg hguard, if_neg hone] at h
      have hparent : 0 < parentPid := not_le.mp fun hle => hguard (Or.inr (Or.inl hle))
      exact Or.inr (isChildOfLoop_sound hparent h).2

theorem earlierThan_trans {t1 t2 t3 : Timespec} (h12 : earlierThan t1 t2 = false)
    (h23 : earlierThan t2 t3 = false) : earlierThan t1 t3 = false := by
  simp only [earlierThan, Bool.or_eq_false_iff, Bool.and_eq_false_iff, decide_eq_false_iff_not] at *
  omega

/-- Everything under /proc can be read. -/
def AllReadable (os : Os) : Prop := ∀ pid p, os.proc pid = some p → p.readable = true

theorem startedBefore_eq_false {childPid parentPid : Pid} {p q : OsProcess}
    (hp : os.proc childPid = some p) (hq : os.proc parentPid = some q)
    (h : earlierThan p.startTime q.startTime = false) :
    os.startedBefore childPid (os.getStartTime parentPid) = false := by
  cases hqr : q.startReadable with
  | false => simp [getStartTime, hq, hqr, startedBefore]
  | true =>
    cases hpr : p.startReadable with
    | false => simp [getStartTime, hp, hq, hpr, hqr, startedBefore]
    | true => simp [getStartTime, hp, hq, hpr, hqr, startedBefore, h]

theorem getppidOf_of_parentOf (hread : os.AllReadable) {pid parent : Pid}
    (h : os.parentOf pid = some parent) : os.getppidOf pid = parent := by
  obtain ⟨hgt, p, hp, rfl⟩ := parentOf_eq_some.mp h
  have hpos : ¬ pid ≤ 0 := fun hle => by linarith
  simp [getppidOf, hpos, hp, hread pid p hp]

/-- A process that exists started no later than those below it. The induction is
along the parent links. -/
theorem startTime_of_ancestor (hgrow : os.StartTimesGrow) {parentPid : Pid} {q : OsProcess}
    (hq : os.proc parentPid = some q) {childPid : Pid}
    (h : ParentTree.Ancestor os.parentOf parentPid childPid) :
    ∃ p, os.proc childPid = some p ∧ earlierThan p.startTime q.startTime = false := by
  induction h using Relation.TransGen.head_induction_on with
  | single hlink =>
    obtain ⟨-, p, hp, hpp⟩ := parentOf_eq_some.mp hlink
    exact ⟨p, hp, hgrow _ p q hp (hpp ▸ hq)⟩
  | head hlink _ ih =>
    obtain ⟨m, hm, hmstart⟩ := ih
    obtain ⟨-, p, hp, hpp⟩ := parentOf_eq_some.mp hlink
    exact ⟨p, hp, earlierThan_trans (hgrow _ p m hp (hpp ▸ hm)) hmstart⟩

/-- The test at the top of the loop does not stop a walk that would find its
ancestor, whichever start times can be read. -/
theorem startedBefore_of_ancestor (hgrow : os.StartTimesGrow) {parentPid childPid : Pid}
    (h : ParentTree.Ancestor os.parentOf parentPid childPid) :
    os.startedBefore childPid (os.getStartTime parentPid) = false := by
  cases hq : os.proc parentPid with
  | none => simp [getStartTime, hq, startedBefore]
  | some q =>
    obtain ⟨p, hp, hstart⟩ := startTime_of_ancestor hgrow hq h
    exact startedBefore_eq_false hp hq hstart

/-- A walk through readable records finds every ancestor, unless a start time stops it. -/
theorem isChildOfLoop_complete (hread : os.AllReadable) {parentPid : Pid}
    {parentStart : Option Timespec}
    (hstart : ∀ pid, ParentTree.Ancestor os.parentOf parentPid pid →
      os.startedBefore pid parentStart = false)
    {childPid : Pid} (h : ParentTree.Ancestor os.parentOf parentPid childPid) :
    ∃ fuel, os.isChildOfLoop parentPid parentStart fuel childPid = some true := by
  induction h using Relation.TransGen.head_induction_on with
  | single hlink =>
    have hgt := (parentOf_eq_some.mp hlink).1
    refine ⟨1, ?_⟩
    rw [isChildOfLoop, if_neg (not_le.mpr hgt), hstart _ (.single hlink)]
    simp [getppidOf_of_parentOf hread hlink]
  | head hlink hrest ih =>
    obtain ⟨fuel, hfuel⟩ := ih
    have hgt := (parentOf_eq_some.mp hlink).1
    refine ⟨fuel + 1, ?_⟩
    rw [isChildOfLoop, if_neg (not_le.mpr hgt), hstart _ (.head hlink hrest)]
    simp [getppidOf_of_parentOf hread hlink, hfuel]

end Os

end CpuLimit
