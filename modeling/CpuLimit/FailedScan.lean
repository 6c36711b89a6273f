import CpuLimit.LimitProcess
import CpuLimit.LinuxIterator

/-!
# Scans that fail

`update_process_group` does not look at the result of `init_process_iterator`.
When /proc cannot be opened, it goes on as after a scan that shows no process.
-/
namespace CpuLimit

open Library

/-- The filter that `update_process_group` gives to the iterator. -/
def ProcessGroup.filter (g : ProcessGroup) : ProcessFilter := ⟨g.targetPid, g.includeChildren⟩

theorem ProcessGroup.update_of_empty (g : ProcessGroup) (now : Timespec) :
    g.update now [] = stamp now g.clearMembers := rfl

namespace LimitState

variable {s : LimitState} {i : CycleInput}

/-- The cycle keeps the group as it was, and is not the last one of a group that has
members. -/
structure Survives (ncpu : ℤ) (limit : ℚ) (s : LimitState) (i : CycleInput) : Prop where
  proclist : (s.updated i).proclist = s.group.proclist
  proctable : (s.updated i).proctable = s.group.proctable
  records : (s.updated i).records = s.group.records
  lastUpdate : (s.updated i).lastUpdate = s.group.lastUpdate
  goesOn : s.group.proclist ≠ [] → (s.limitCycle ncpu limit i).isSome

/-- Without a scanned process the loop ends, whoever was a member. -/
theorem limitCycle_of_empty (ncpu : ℤ) (limit : ℚ) (h : i.yielded = []) :
    s.limitCycle ncpu limit i = none := by
  have hlist : (s.updated i).proclist.length = 0 := by
    rw [updated, h, ProcessGroup.update_of_empty]
    simp [ProcessGroup.clearMembers]
  rw [limitCycle, if_pos hlist]

/-- A long interval moves the timestamp, with or without processes. -/
theorem lastUpdate_updated_iff :
    (s.updated i).lastUpdate = s.group.lastUpdate ↔
      timediffInMs i.now s.group.lastUpdate < minDt ∨ i.now = s.group.lastUpdate := by
  rw [updated, ProcessGroup.update_lastUpdate]
  split_ifs with hdt
  · exact iff_of_true rfl (Or.inl hdt)
  · simp [hdt]

/-- At the time of the last update the interval is short. -/
theorem timediffInMs_self_lt (t : Timespec) : timediffInMs t t < minDt := by
  rw [timediffInMs_eq, sub_self]
  norm_num [minDt]

/-- A failed scan leaves the group as it was exactly if the group was empty already
and its last update is less than `MIN_DT` ago. -/
theorem survives_iff_of_failed (ncpu : ℤ) (limit : ℚ) (files : ProcFiles) {calls : ℕ}
    {dir : ProcDir} {it : ProcessIterator}
    (hinit : initProcessIterator dir s.group.filter = some (-1, it))
    (hscan : files.scan (calls + 1) dir s.group.filter = some i.yielded) :
    s.Survives ncpu limit i ↔
      s.group.proclist = [] ∧ timediffInMs i.now s.group.lastUpdate < minDt := by
  have hempty : i.yielded = [] := by
    rw [files.scan_of_failed hinit] at hscan
    exact (Option.some.inj hscan).symm
  have hupdated : s.updated i = ProcessGroup.stamp i.now s.group.clearMembers := by
    rw [updated, hempty, ProcessGroup.update_of_empty]
  constructor
  · intro h
    have hlist : s.group.proclist = [] := by
      by_contra hne
      have hgoes := h.goesOn hne
      rw [limitCycle_of_empty ncpu limit hempty] at hgoes
      cases hgoes
    refine ⟨hlist, ?_⟩
    rcases lastUpdate_updated_iff.mp h.lastUpdate with hdt | hnow
    · exact hdt
    · rw [hnow]
      exact timediffInMs_self_lt _
  · rintro ⟨hlist, hdt⟩
    refine ⟨?_, ?_, ?_, lastUpdate_updated_iff.mpr (Or.inl hdt), fun hne => absurd hlist hne⟩
    · rw [hupdated, ProcessGroup.stamp_proclist, hlist]
      rfl
    · rw [hupdated, ProcessGroup.stamp_proctable]
      rfl
    · rw [hupdated, ProcessGroup.stamp_records]
      rfl

end LimitState

/-- The files of one idle process. -/
def idleFiles : ProcFiles :=
  ⟨⟨[⟨5, 1, false, ⟨0, 0⟩, true, true, true, none⟩], true, false⟩, fun _ => 0, fun _ => ['i'], 2⟩

/-- A cycle whose scan fails, 100 milliseconds after the start. -/
def failedCycle : CycleInput := ⟨⟨0, 100000000⟩, [], none, fun _ => false, fun _ => false⟩

/-- A group that has been empty since the clock showed one second. -/
def emptyState : LimitState := LimitState.enter 5 false ⟨1, 0⟩ ⟨1, 0⟩ [] timeSlotBase

/-- It survives, because the clock has been set back. -/
theorem survives_iff_of_failed_emptyState : emptyState.Survives 1 (1 / 2) failedCycle := by
  have hinit : initProcessIterator .unopened emptyState.group.filter =
      some (-1, ⟨none, none⟩) := rfl
  have hscan : idleFiles.scan (0 + 1) .unopened emptyState.group.filter =
      some failedCycle.yielded := rfl
  exact (LimitState.survives_iff_of_failed 1 (1 / 2) idleFiles hinit hscan).mpr (by decide +kernel)

/-- After one cycle, which ends with SIGSTOP to the idle process, the failed scan
makes the limiter leave. -/
theorem not_survives_failedCycle :
    idleFiles.scan 1 .unopened ⟨5, false⟩ = some failedCycle.yielded ∧
      ∃ s, idleFirstCycle 1 = some s ∧ s.group.memberPids = [5] ∧
        s.limitCycle 1 (1 / 2) failedCycle = none ∧ ¬ s.Survives 1 (1 / 2) failedCycle := by
  refine ⟨by decide, ?_⟩
  cases hs : idleFirstCycle 1 with
  | none => exact absurd (congrArg Option.isSome hs) (by decide +kernel)
  | some s =>
    have hmembers : s.group.memberPids = [5] := by
      have hrun : (idleFirstCycle 1).map (fun s => s.group.memberPids) = some [5] := by
        decide +kernel
      rw [hs] at hrun
      exact Option.some.inj hrun
    have hlast := LimitState.limitCycle_of_empty (s := s) (i := failedCycle) 1 (1 / 2) rfl
    refine ⟨s, rfl, hmembers, hlast, fun h => ?_⟩
    have hne : s.group.proclist ≠ [] := by
      intro hnil
      simp [ProcessGroup.memberPids, hnil] at hmembers
    have hgoes := h.goesOn hne
    rw [hlast] at hgoes
    cases hgoes

end CpuLimit
