import CpuLimit.UsageEstimate

/-!
# The window of a usage sample

A sample divides CPU time by the interval since `last_update`, a timestamp of
the whole group, while the CPU time was stored for one process. The group is
therefore run together with a record of when each CPU time was stored. The two
windows drift apart exactly when an update that advances the timestamp leaves
out a process whose record stays in the table.
-/
namespace CpuLimit

open Library ProcessGroup

/-- The update computes a usage sample for `pid`: the interval is long enough,
and the process is both scanned and in the table. -/
def Sampled (g : ProcessGroup) (now : Timespec) (yielded : List Process) (pid : Pid) : Prop :=
  minDt ≤ timediffInMs now g.lastUpdate ∧
    (yielded.find? fun tmp => tmp.pid = pid).isSome ∧ (g.lookup pid).isSome

instance (g : ProcessGroup) (now : Timespec) (yielded : List Process) (pid : Pid) :
    Decidable (Sampled g now yielded pid) := inferInstanceAs (Decidable (_ ∧ _))

/-- The update stores the scanned CPU time of `pid`: in a new record, or with a sample. -/
def Stores (g : ProcessGroup) (now : Timespec) (yielded : List Process) (pid : Pid) : Prop :=
  (yielded.find? fun tmp => tmp.pid = pid).isSome ∧
    (minDt ≤ timediffInMs now g.lastUpdate ∨ (g.lookup pid).isNone)

instance (g : ProcessGroup) (now : Timespec) (yielded : List Process) (pid : Pid) :
    Decidable (Stores g now yielded pid) := inferInstanceAs (Decidable (_ ∧ _))

/-- `Stores` is what the update does to the CPU time of every record. -/
theorem cputime_update {g : ProcessGroup} (h : TableSound g) (now : Timespec)
    {yielded : List Process} (hv : ValidScan yielded) (pid : Pid) :
    ((g.update now yielded).lookup pid).map Process.cputime =
      if Stores g now yielded pid then
        (yielded.find? fun tmp => tmp.pid = pid).map Process.cputime
      else (g.lookup pid).map Process.cputime := by
  rw [(update_spec h now hv).2.2]
  cases hs : yielded.find? fun tmp => tmp.pid = pid with
  | none => simp [Stores, hs, observe]
  | some tmp =>
    cases hl : g.lookup pid with
    | none => simp [Stores, hs, hl, observe, newcomer]
    | some p =>
      by_cases hdt : timediffInMs now g.lastUpdate < minDt
      · simp [Stores, hs, hl, observe, hdt]
      · simp [Stores, hs, hl, observe, hdt, not_lt.mp hdt]

/-- A group with its measurement history: the latest clock reading, the reading
of the update that stored each CPU time, and whether the process was since then
left out of an update that advanced the timestamp at least `minDt` later. -/
structure Timed where
  group : ProcessGroup
  clock : Timespec
  storedAt : Pid → Timespec
  missed : Pid → Bool

namespace Timed

def fresh (target : Pid) (includeChildren : Bool) (start : Timespec) : Timed :=
  ⟨ProcessGroup.fresh target includeChildren start, start, fun _ => start, fun _ => false⟩

def apply (t : Timed) : Op → Timed
  | .update now yielded =>
    { group := t.group.update now yielded
      clock := now
      storedAt := fun pid => if Stores t.group now yielded pid then now else t.storedAt pid
      missed := fun pid =>
        if Stores t.group now yielded pid then false
        else t.missed pid || (decide (minDt ≤ timediffInMs now t.group.lastUpdate) &&
          decide (minDt ≤ timediffInMs now (t.storedAt pid))) }
  | .removeProcess pid => { t with group := t.group.removeProcess pid }
  | .dropMember node => { t with group := t.group.dropMember node }

/-- The clock does not run backwards, and scans are valid. -/
def Forward (t : Timed) : Op → Prop
  | .update now yielded => t.clock.ms ≤ now.ms ∧ ValidScan yielded
  | .removeProcess _ => True
  | .dropMember _ => True

/-- Every sample is divided by an interval that differs by less than `minDt`
from the time since the subtracted CPU time was stored. -/
def SameWindow (t : Timed) : Op → Prop
  | .update now yielded => ∀ tmp ∈ yielded, Sampled t.group now yielded tmp.pid →
      |timediffInMs now t.group.lastUpdate - timediffInMs now (t.storedAt tmp.pid)| < minDt
  | .removeProcess _ => True
  | .dropMember _ => True

/-- No sampled process has been missed since its CPU time was stored. -/
def NoneMissed (t : Timed) : Op → Prop
  | .update now yielded => ∀ tmp ∈ yielded, Sampled t.group now yielded tmp.pid →
      t.missed tmp.pid = false
  | .removeProcess _ => True
  | .dropMember _ => True

instance (t : Timed) (op : Op) : Decidable (t.Forward op) :=
  match op with
  | .update now yielded =>
    inferInstanceAs (Decidable (t.clock.ms ≤ now.ms ∧ ValidScan yielded))
  | .removeProcess _ => inferInstanceAs (Decidable True)
  | .dropMember _ => inferInstanceAs (Decidable True)

instance (t : Timed) (op : Op) : Decidable (t.SameWindow op) :=
  match op with
  | .update now yielded => inferInstanceAs (Decidable (∀ tmp ∈ yielded,
      Sampled t.group now yielded tmp.pid →
      |timediffInMs now t.group.lastUpdate - timediffInMs now (t.storedAt tmp.pid)| < minDt))
  | .removeProcess _ => inferInstanceAs (Decidable True)
  | .dropMember _ => inferInstanceAs (Decidable True)

instance (t : Timed) (op : Op) : Decidable (t.NoneMissed op) :=
  match op with
  | .update now yielded => inferInstanceAs (Decidable (∀ tmp ∈ yielded,
      Sampled t.group now yielded tmp.pid → t.missed tmp.pid = false))
  | .removeProcess _ => inferInstanceAs (Decidable True)
  | .dropMember _ => inferInstanceAs (Decidable True)

/-- The measurement of `pid` against the timestamp of the group: it is at most
`minDt` younger, and it is older by `minDt` or more only for a missed process. -/
structure Measured (t : Timed) (pid : Pid) : Prop where
  younger : (t.storedAt pid).ms - t.group.lastUpdate.ms < minDt
  older : t.missed pid = true ↔ minDt ≤ t.group.lastUpdate.ms - (t.storedAt pid).ms

/-- The invariant of a run: it holds of every record in the table. -/
structure Inv (t : Timed) : Prop where
  sound : TableSound t.group
  last_le : t.group.lastUpdate.ms ≤ t.clock.ms
  measured : ∀ pid, (t.group.lookup pid).isSome → t.Measured pid

theorem inv_fresh (target : Pid) (includeChildren : Bool) (start : Timespec) :
    (fresh target includeChildren start).Inv where
  sound := tableSound_fresh target includeChildren start
  last_le := le_rfl
  measured pid h := by cases h

/-- A stored measurement is as old as the timestamp or less than `minDt` younger. -/
theorem measured_of_stores {t : Timed} (h : t.Inv) {now : Timespec} {yielded : List Process}
    (hclock : t.clock.ms ≤ now.ms) {pid : Pid} (hs : Stores t.group now yielded pid) :
    (t.apply (.update now yielded)).Measured pid := by
  have hlast := h.last_le
  have hpos : 0 < minDt := by norm_num [minDt]
  constructor
  · simp only [apply, if_pos hs, update_lastUpdate]
    split_ifs with hdt
    · rwa [timediffInMs_eq] at hdt
    · linarith
  · simp only [apply, if_pos hs, update_lastUpdate, Bool.false_eq_true, false_iff, not_le]
    split_ifs with hdt
    · linarith
    · linarith

/-- A measurement that is not renewed ages with the timestamp. -/
theorem measured_of_not_stores {t : Timed} {now : Timespec} {yielded : List Process} {pid : Pid}
    (hm : t.Measured pid) (hs : ¬ Stores t.group now yielded pid) :
    (t.apply (.update now yielded)).Measured pid := by
  obtain ⟨hyoung, hold⟩ := hm
  have hpos : 0 < minDt := by norm_num [minDt]
  by_cases hdt : timediffInMs now t.group.lastUpdate < minDt
  · have hshort : ¬ minDt ≤ timediffInMs now t.group.lastUpdate := not_le.mpr hdt
    constructor
    · simpa only [apply, if_neg hs, update_lastUpdate, if_pos hdt] using hyoung
    · simpa only [apply, if_neg hs, update_lastUpdate, if_pos hdt, hshort, decide_false,
        Bool.false_and, Bool.or_false] using hold
  · have hlong : minDt ≤ timediffInMs now t.group.lastUpdate := not_lt.mp hdt
    rw [timediffInMs_eq] at hlong
    constructor
    · simp only [apply, if_neg hs, update_lastUpdate, if_neg hdt]
      linarith
    · simp only [apply, if_neg hs, update_lastUpdate, if_neg hdt, Bool.or_eq_true,
        Bool.and_eq_true, decide_eq_true_eq, hold]
      rw [timediffInMs_eq, timediffInMs_eq]
      simp only [hlong, true_and]
      constructor
      · rintro (hle | hle)
        · linarith
        · exact hle
      · exact Or.inr

theorem Inv.update {t : Timed} (h : t.Inv) {now : Timespec} {yielded : List Process}
    (hclock : t.clock.ms ≤ now.ms) (hv : ValidScan yielded) :
    (t.apply (.update now yielded)).Inv := by
  obtain ⟨hc, -, hl⟩ := update_spec h.sound now hv
  refine ⟨hc.table, ?_, ?_⟩
  · have hlast := h.last_le
    simp only [apply, update_lastUpdate]
    split_ifs
    · linarith
    · exact le_rfl
  · intro pid hsome
    by_cases hs : Stores t.group now yielded pid
    · exact measured_of_stores h hclock hs
    · refine measured_of_not_stores (h.measured pid ?_) hs
      -- a record that is there now and was not stored now was there before
      have hsome' : ((t.group.update now yielded).lookup pid).isSome := hsome
      rw [hl] at hsome'
      cases hf : yielded.find? fun tmp => tmp.pid = pid with
      | none => simpa [hf, observe] using hsome'
      | some tmp =>
        by_contra hnone
        exact hs ⟨by simp [hf], Or.inr (by simpa using hnone)⟩

/-- Removing records keeps the invariant of the others. -/
theorem Inv.remove {t : Timed} (h : t.Inv) {g : ProcessGroup} (hg : TableSound g)
    (hlast : g.lastUpdate = t.group.lastUpdate)
    (hsub : ∀ pid, (g.lookup pid).isSome → (t.group.lookup pid).isSome) :
    ({ t with group := g } : Timed).Inv where
  sound := hg
  last_le := by rw [hlast]; exact h.last_le
  measured pid hsome := by
    obtain ⟨hyoung, hold⟩ := h.measured pid (hsub pid hsome)
    rw [← hlast] at hyoung hold
    exact ⟨hyoung, hold⟩

theorem Inv.apply {t : Timed} (h : t.Inv) {op : Op} (hop : t.Forward op) : (t.apply op).Inv := by
  cases op with
  | update now yielded => exact h.update hop.1 hop.2
  | removeProcess pid =>
    refine h.remove (TableSound.removeProcess h.sound pid) rfl ?_
    intro pid' hsome
    rw [lookup_removeProcess h.sound] at hsome
    split_ifs at hsome
    · cases hsome
    · exact hsome
  | dropMember node =>
    refine h.remove (TableSound.dropMember h.sound node) (dropMember_lastUpdate _ node) ?_
    intro pid' hsome
    rw [lookup_dropMember h.sound] at hsome
    split_ifs at hsome
    · cases hsome
    · exact hsome

/-- For a sampled process the two windows agree exactly when it was not missed. -/
theorem sameWindow_iff {t : Timed} (h : t.Inv) (op : Op) :
    t.SameWindow op ↔ t.NoneMissed op := by
  cases op with
  | update now yielded =>
    refine forall₂_congr fun tmp _ => imp_congr_right fun hs => ?_
    obtain ⟨hyoung, hold⟩ := h.measured tmp.pid hs.2.2
    have hpos : 0 < minDt := by norm_num [minDt]
    rw [timediffInMs_eq, timediffInMs_eq, abs_lt, Bool.eq_false_iff, ne_eq, hold, not_le]
    constructor
    · intro hw; linarith [hw.1]
    · intro hw; constructor <;> linarith
  | removeProcess pid => exact Iff.rfl
  | dropMember node => exact Iff.rfl

end Timed

/-- Along every run with a clock that does not run backwards, each sample is
divided by an interval within `minDt` of the window of its CPU time, if and only
if no process is sampled after it was missed. -/
theorem sameWindow_iff_noneMissed (target : Pid) (includeChildren : Bool) (start : Timespec)
    (ops : List Op)
    (hforward : Runs.Along Timed.apply Timed.Forward
      (Timed.fresh target includeChildren start) ops) :
    Runs.Along Timed.apply Timed.SameWindow (Timed.fresh target includeChildren start) ops ↔
      Runs.Along Timed.apply Timed.NoneMissed (Timed.fresh target includeChildren start) ops :=
  Runs.along_congr_of_invariant (fun _ _ h hop => h.apply hop)
    (fun _ op h _ => Timed.sameWindow_iff h op) (Timed.inv_fresh target includeChildren start)
    hforward

/-- A live process that the second of three updates does not see. -/
def unseenOnce : List Op :=
  [.update ⟨0, 0⟩ [halfBusy 0], .update ⟨0, 100000000⟩ [], .update ⟨0, 200000000⟩ [halfBusy 100]]

theorem sameWindow_iff_noneMissed_unseenOnce :
    Runs.Along Timed.apply Timed.SameWindow (Timed.fresh 5 true ⟨0, 0⟩) unseenOnce ↔
      Runs.Along Timed.apply Timed.NoneMissed (Timed.fresh 5 true ⟨0, 0⟩) unseenOnce :=
  sameWindow_iff_noneMissed 5 true ⟨0, 0⟩ unseenOnce (by decide +kernel)

/-- Its sample divides the CPU time of 200 ms by an interval of 100 ms. -/
theorem not_sameWindow_unseenOnce :
    Runs.Along Timed.apply Timed.Forward (Timed.fresh 5 true ⟨0, 0⟩) unseenOnce ∧
      ¬ Runs.Along Timed.apply Timed.SameWindow (Timed.fresh 5 true ⟨0, 0⟩) unseenOnce := by
  decide +kernel

end CpuLimit
