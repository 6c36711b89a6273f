import CpuLimit.ProcessGroup
import CpuLimit.Library.MovingAverage

/-!
# The usage estimate of a process

What a group is for, without its data structures: a finite map from `pid`s to
records, a member list and one timestamp. The faithful group refines this view,
so buckets, addresses and list nodes drop out of every statement about usage.
Each record then evolves on its own: it sees the intervals of the long updates
and the CPU times that they report for its `pid`, and nothing else.
-/
namespace CpuLimit

open Library ProcessGroup

/-- The abstract group. -/
@[ext] structure GroupView where
  record : Pid → Option Process
  members : List Pid
  lastUpdate : Timespec

namespace GroupView

def forget (v : GroupView) (pid : Pid) : GroupView :=
  { v with record := Function.update v.record pid none }

def apply (v : GroupView) : Op → GroupView
  | .update now yielded =>
    let dt := timediffInMs now v.lastUpdate
    { record := fun pid => observe dt (v.record pid) (yielded.find? fun tmp => tmp.pid = pid)
      members := yielded.map Process.pid
      lastUpdate := if dt < minDt then v.lastUpdate else now }
  | .removeProcess pid => v.forget pid
  | .dropMember node =>
    match v.members[node]? with
    | none => v
    | some pid => { v.forget pid with members := v.members.eraseIdx node }

end GroupView

namespace ProcessGroup

def view (g : ProcessGroup) : GroupView := ⟨g.lookup, g.memberPids, g.lastUpdate⟩

theorem view_removeProcess {g : ProcessGroup} (h : TableSound g) (pid : Pid) :
    (g.removeProcess pid).view = g.view.forget pid := by
  apply GroupView.ext
  · funext pid'
    change (g.removeProcess pid).lookup pid' = Function.update g.lookup pid none pid'
    rw [lookup_removeProcess h, Function.update_apply]
    simp only [eq_comm]
  · rfl
  · rfl

/-- The faithful operations refine the abstract ones. -/
theorem view_apply {g : ProcessGroup} (h : TableSound g) {op : Op} (hop : op.Valid) :
    (g.apply op).view = g.view.apply op := by
  cases op with
  | update now yielded =>
    obtain ⟨_, hm, hl⟩ := update_spec h now hop
    exact GroupView.ext (funext hl) hm (update_lastUpdate now yielded g)
  | removeProcess pid => exact view_removeProcess h pid
  | dropMember node =>
    cases hid : g.proclist[node]? with
    | none => simp [apply, GroupView.apply, dropMember, view, memberPids, hid]
    | some id =>
      have hmem : g.view.members[node]? = some (g.records.pidOf id) := by
        simp [view, memberPids, hid]
      have hpids : (g.dropMember node).memberPids = g.view.members.eraseIdx node :=
        memberPids_dropMember g node
      have hrest := view_removeProcess
        (g := { g with proclist := g.proclist.eraseIdx node }) h (g.records.pidOf id)
      simp only [GroupView.apply, hmem, apply]
      rw [dropMember_of_getElem hid] at hpids ⊢
      have hrecord := congrArg GroupView.record hrest
      have hlast := congrArg GroupView.lastUpdate hrest
      exact GroupView.ext hrecord hpids hlast

theorem view_run {g : ProcessGroup} (h : TableSound g) {ops : List Op}
    (hops : ∀ op ∈ ops, op.Valid) :
    (Runs.run apply g ops).view = Runs.run GroupView.apply g.view ops := by
  have halong : Runs.Along apply (fun _ op => op.Valid) g ops := Runs.along_of_forall hops
  have href := Runs.run_refines (f := id) (fun _ _ h hop => TableSound.apply h hop)
    (fun _ _ h hop => view_apply h hop) h halong
  simpa using href

/-- A record in the table is what the table returns for its `pid`. -/
theorem lookup_of_mem_tableRecords {g : ProcessGroup} (h : TableSound g) {id : RecordId}
    (hid : id ∈ g.tableRecords) : g.lookup (g.records.pidOf id) = some (g.records.cell id) := by
  obtain ⟨i, _, hi⟩ := List.mem_flatMap.mp hid
  have hf := (h.findPid_eq_some_iff (g.records.pidOf id) id).mpr ⟨⟨i, hi⟩, rfl⟩
  simp [lookup, hf]

end ProcessGroup

/-! ## The range of the estimate -/

/-- Not yet estimated, or a share of one CPU. -/
def UsageInRange (p : Process) : Prop :=
  p.cpuUsage = -1 ∨ (0 ≤ p.cpuUsage ∧ p.cpuUsage ≤ 1)

instance (p : Process) : Decidable (UsageInRange p) := inferInstanceAs (Decidable (_ ∨ _))

theorem alpha_nonneg : 0 ≤ alpha := by norm_num [alpha]

theorem alpha_le_one : alpha ≤ 1 := by norm_num [alpha]

/-- The sample of a refresh over CPU time that has not decreased is a share. -/
theorem sample_mem_range {dt : ℚ} (hdt : minDt ≤ dt) {c c' : ℚ} (hc : c ≤ c') :
    0 ≤ cMin ((c' - c) / dt) 1 ∧ cMin ((c' - c) / dt) 1 ≤ 1 := by
  have hpos : 0 < dt := lt_of_lt_of_le (by norm_num [minDt]) hdt
  rw [cMin_eq_min]
  exact ⟨le_min (div_nonneg (by linarith) hpos.le) zero_le_one, min_le_right _ _⟩

theorem refresh_inRange {dt : ℚ} (hdt : minDt ≤ dt) {tmp p : Process}
    (hc : p.cputime ≤ tmp.cputime) (hp : UsageInRange p) : UsageInRange (refresh dt tmp p) := by
  obtain ⟨hs0, hs1⟩ := sample_mem_range hdt hc
  right
  by_cases hneg : p.cpuUsage < 0
  · simpa [refresh, hneg] using And.intro hs0 hs1
  · obtain ⟨hu0, hu1⟩ : 0 ≤ p.cpuUsage ∧ p.cpuUsage ≤ 1 := by
      rcases hp with hp | hp
      · rw [hp] at hneg; norm_num at hneg
      · exact hp
    have hlo := MovingAverage.le_step alpha_nonneg alpha_le_one hu0 hs0
    have hhi := MovingAverage.step_le alpha_nonneg alpha_le_one hu1 hs1
    simp only [refresh, if_neg hneg]
    exact ⟨hlo, hhi⟩

namespace GroupView

/-- Every scanned process that is sampled against a record reports at least the
CPU time stored there. -/
def NoBackwardSample (v : GroupView) : Op → Prop
  | .update now yielded => minDt ≤ timediffInMs now v.lastUpdate →
      ∀ tmp ∈ yielded, ∀ p ∈ v.record tmp.pid, p.cputime ≤ tmp.cputime
  | .removeProcess _ => True
  | .dropMember _ => True

instance (v : GroupView) (op : Op) : Decidable (v.NoBackwardSample op) :=
  match op with
  | .update now yielded => inferInstanceAs (Decidable (minDt ≤ timediffInMs now v.lastUpdate →
      ∀ tmp ∈ yielded, ∀ p ∈ v.record tmp.pid, p.cputime ≤ tmp.cputime))
  | .removeProcess _ => inferInstanceAs (Decidable True)
  | .dropMember _ => inferInstanceAs (Decidable True)

def AllInRange (v : GroupView) : Prop := ∀ pid, ∀ p ∈ v.record pid, UsageInRange p

theorem AllInRange.forget {v : GroupView} (h : v.AllInRange) (pid : Pid) :
    (v.forget pid).AllInRange := by
  intro pid' p hp
  by_cases he : pid' = pid
  · simp [GroupView.forget, he] at hp
  · exact h pid' p (by simpa [GroupView.forget, he] using hp)

theorem AllInRange.apply {v : GroupView} (h : v.AllInRange) {op : Op}
    (hop : v.NoBackwardSample op) : (v.apply op).AllInRange := by
  cases op with
  | update now yielded =>
    intro pid p hp
    change observe (timediffInMs now v.lastUpdate) (v.record pid)
      (yielded.find? fun tmp => tmp.pid = pid) = some p at hp
    cases hs : yielded.find? fun tmp => tmp.pid = pid with
    | none =>
      rw [hs] at hp
      exact h pid p hp
    | some tmp =>
      have hpid : tmp.pid = pid := by simpa using List.find?_some hs
      have hmem : tmp ∈ yielded := List.mem_of_find?_eq_some hs
      rw [hs] at hp
      cases hr : v.record pid with
      | none =>
        rw [hr] at hp
        cases hp
        exact Or.inl rfl
      | some r =>
        rw [hr] at hp
        simp only [observe, Option.some.injEq] at hp
        subst hp
        split_ifs with hdt
        · exact h pid r hr
        · have hle : minDt ≤ timediffInMs now v.lastUpdate := not_lt.mp hdt
          exact refresh_inRange hle (hop hle tmp hmem r (hpid ▸ hr)) (h pid r hr)
  | removeProcess pid => exact h.forget pid
  | dropMember node =>
    simp only [GroupView.apply]
    split
    · exact h
    · exact h.forget _

end GroupView

/-- In every run whose sampled processes never report less CPU time than their
record holds, every record of the table has a usage in range. -/
theorem usageInRange_of_run (target : Pid) (includeChildren : Bool) (start now : Timespec)
    (yielded : List Process) (ops : List Op) (hscan : ValidScan yielded)
    (hops : ∀ op ∈ ops, op.Valid)
    (hforward : Runs.Along apply (fun g op => g.view.NoBackwardSample op)
      (initProcessGroup target includeChildren start now yielded) ops) :
    let g := Runs.run apply (initProcessGroup target includeChildren start now yielded) ops
    ∀ id ∈ g.tableRecords, UsageInRange (g.records.cell id) := by
  intro g id hid
  have hfresh := tableSound_fresh target includeChildren start
  have hinit : TableSound (initProcessGroup target includeChildren start now yielded) :=
    (update_spec hfresh now hscan).1.table
  -- the first update meets only an empty table
  have hinitRange :
      (initProcessGroup target includeChildren start now yielded).view.AllInRange := by
    have hop : (Op.update now yielded).Valid := hscan
    have hv : (initProcessGroup target includeChildren start now yielded).view =
        (fresh target includeChildren start).view.apply (.update now yielded) :=
      view_apply hfresh hop
    rw [hv]
    refine GroupView.AllInRange.apply ?_ ?_
    · intro pid p hp; cases hp
    · intro _ tmp _ p hp; cases hp
  have halong : Runs.Along apply (fun g op => op.Valid ∧ g.view.NoBackwardSample op)
      (initProcessGroup target includeChildren start now yielded) ops :=
    Runs.along_and.mpr ⟨Runs.along_of_forall hops, hforward⟩
  have hstep : ∀ g op, TableSound g ∧ g.view.AllInRange →
      op.Valid ∧ g.view.NoBackwardSample op →
      TableSound (g.apply op) ∧ (g.apply op).view.AllInRange := by
    intro g op hg hop
    refine ⟨hg.1.apply hop.1, ?_⟩
    rw [view_apply hg.1 hop.1]
    exact hg.2.apply hop.2
  have hrun : TableSound g ∧ g.view.AllInRange :=
    Runs.run_invariant hstep ⟨hinit, hinitRange⟩ halong
  exact hrun.2 _ _ (lookup_of_mem_tableRecords hrun.1 hid)

/-- A process that runs at half a CPU, with its reported CPU time. -/
def halfBusy (cputime : ℚ) : Process := ⟨5, 1, cputime, 0, ['a']⟩

theorem usageInRange_of_halfBusy :
    let g := Runs.run apply (initProcessGroup 5 true ⟨0, 0⟩ ⟨0, 0⟩ [halfBusy 0])
      [.update ⟨0, 100000000⟩ [halfBusy 50], .update ⟨0, 200000000⟩ [halfBusy 100]]
    ∀ id ∈ g.tableRecords, UsageInRange (g.records.cell id) :=
  usageInRange_of_run 5 true ⟨0, 0⟩ ⟨0, 0⟩ [halfBusy 0] _ (by decide) (by decide)
    (by decide +kernel)

/-- Descriptors labelled with the process they were read from, in the order of
their reading: no CPU time is negative, and while a process holds its `pid` the
time never decreases. -/
def CputimeMonotone (seen : List (ℕ × Process)) : Prop :=
  (∀ x ∈ seen, 0 ≤ x.2.cputime) ∧
    seen.Pairwise fun x y => x.1 = y.1 → x.2.pid = y.2.pid ∧ x.2.cputime ≤ y.2.cputime

instance (seen : List (ℕ × Process)) : Decidable (CputimeMonotone seen) :=
  inferInstanceAs (Decidable (_ ∧ _))

/-- Process 0 is seen with one second of CPU time and leaves; process 1 is then
seen under its `pid`. -/
def reusedPidScans : List (Timespec × List (ℕ × Process)) :=
  [(⟨0, 0⟩, [(0, halfBusy 1000)]), (⟨0, 100000000⟩, []), (⟨0, 200000000⟩, [(1, halfBusy 0)])]

/-- The table still holds the record of process 0, so process 1 is given a
negative sample and the usage -10. -/
theorem usage_outOfRange_of_reusedPid :
    let g := Runs.run apply (fresh 5 true ⟨0, 0⟩)
      (reusedPidScans.map fun s => .update s.1 (s.2.map Prod.snd))
    CputimeMonotone (reusedPidScans.flatMap Prod.snd) ∧
      (∀ s ∈ reusedPidScans, ValidScan (s.2.map Prod.snd)) ∧
      0 ∈ g.tableRecords ∧ (g.records.cell 0).cpuUsage = -10 ∧
      ¬ UsageInRange (g.records.cell 0) := by
  decide +kernel

end CpuLimit
