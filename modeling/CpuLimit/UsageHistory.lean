import CpuLimit.UsageEstimate

/-!
# Usage over a whole stay

One process is followed from the update that adds it to the table. Its usage is
the moving average of the shares that the long updates report for it: a closed
form in which no other process, no short update and no scan order occurs.
-/
namespace CpuLimit

open Library ProcessGroup

/-- What an update at least `minDt` long reports for a process: its CPU time,
and the interval that the sample is divided by. -/
structure Reading where
  cputime : ℚ
  dt : ℚ
  deriving DecidableEq

/-- The readings of `q` along a history that starts with timestamp `last`. -/
def longReadings (q : Pid) : Timespec → List Op → List Reading
  | _, [] => []
  | last, .update now yielded :: ops =>
    if timediffInMs now last < minDt then longReadings q last ops
    else
      match yielded.find? fun tmp => tmp.pid = q with
      | none => longReadings q now ops
      | some tmp => ⟨tmp.cputime, timediffInMs now last⟩ :: longReadings q now ops
  | last, .removeProcess _ :: ops => longReadings q last ops
  | last, .dropMember _ :: ops => longReadings q last ops

theorem minDt_le_of_mem_longReadings {q : Pid} {last : Timespec} {ops : List Op} {r : Reading}
    (hr : r ∈ longReadings q last ops) : minDt ≤ r.dt := by
  induction ops generalizing last with
  | nil => simp [longReadings] at hr
  | cons op ops ih =>
    cases op with
    | update now yielded =>
      simp only [longReadings] at hr
      split_ifs at hr with hdt
      · exact ih hr
      · cases hf : yielded.find? fun tmp => tmp.pid = q with
        | none =>
          rw [hf] at hr
          exact ih hr
        | some tmp =>
          rw [hf] at hr
          rcases List.mem_cons.mp hr with rfl | hr
          · exact not_lt.mp hdt
          · exact ih hr
    | removeProcess pid => exact ih hr
    | dropMember node => exact ih hr

/-- The shares of one CPU that successive readings amount to, from the CPU time
stored before them. -/
def shares : ℚ → List Reading → List ℚ
  | _, [] => []
  | c, r :: readings => min ((r.cputime - c) / r.dt) 1 :: shares r.cputime readings

/-- The moving average of the shares, and -1 before the first. -/
def averageUsage (c : ℚ) (readings : List Reading) : ℚ :=
  (MovingAverage.estimate alpha (shares c readings)).getD (-1)

/-- The effect of a reading on a record. -/
def absorb (p : Process) (r : Reading) : Process :=
  refresh r.dt { Records.blank with cputime := r.cputime } p

theorem refresh_eq_absorb (dt : ℚ) (tmp p : Process) :
    refresh dt tmp p = absorb p ⟨tmp.cputime, dt⟩ := rfl

theorem absorb_cpuUsage_of_neg {p : Process} (h : p.cpuUsage < 0) (r : Reading) :
    (absorb p r).cpuUsage = min ((r.cputime - p.cputime) / r.dt) 1 := by
  simp [absorb, refresh, h]

theorem absorb_cpuUsage_of_nonneg {p : Process} (h : 0 ≤ p.cpuUsage) (r : Reading) :
    (absorb p r).cpuUsage =
      MovingAverage.step alpha p.cpuUsage (min ((r.cputime - p.cputime) / r.dt) 1) := by
  simp [absorb, refresh, not_lt.mpr h, MovingAverage.step]

/-- Once estimated, the usage follows the shares: none of them is negative, so
the branch for a first estimate is never taken again. -/
theorem foldl_absorb_of_nonneg {p : Process} {readings : List Reading} (hp : 0 ≤ p.cpuUsage)
    (hmono : (p.cputime :: readings.map Reading.cputime).Pairwise (· ≤ ·))
    (hdt : ∀ r ∈ readings, minDt ≤ r.dt) :
    (readings.foldl absorb p).cpuUsage =
      MovingAverage.follow alpha p.cpuUsage (shares p.cputime readings) := by
  induction readings generalizing p with
  | nil => rfl
  | cons r readings ih =>
    rw [List.map_cons, List.pairwise_cons] at hmono
    have hc : p.cputime ≤ r.cputime := hmono.1 _ (by simp)
    obtain ⟨hs, -⟩ := sample_mem_range (hdt r (by simp)) hc
    rw [cMin_eq_min] at hs
    have hu := absorb_cpuUsage_of_nonneg hp r
    have hu0 : 0 ≤ (absorb p r).cpuUsage := by
      rw [hu]
      exact MovingAverage.le_step alpha_nonneg alpha_le_one hp hs
    rw [List.foldl_cons, ih hu0 hmono.2 fun x hx => hdt x (by simp [hx]), hu, shares,
      MovingAverage.follow_cons]
    rfl

/-- The closed form, for a record that has just been created. -/
theorem foldl_absorb_of_new {p : Process} {readings : List Reading} (hp : p.cpuUsage = -1)
    (hmono : (p.cputime :: readings.map Reading.cputime).Pairwise (· ≤ ·))
    (hdt : ∀ r ∈ readings, minDt ≤ r.dt) :
    (readings.foldl absorb p).cpuUsage = averageUsage p.cputime readings := by
  cases readings with
  | nil => exact hp
  | cons r readings =>
    rw [List.map_cons, List.pairwise_cons] at hmono
    have hc : p.cputime ≤ r.cputime := hmono.1 _ (by simp)
    obtain ⟨hs, -⟩ := sample_mem_range (hdt r (by simp)) hc
    rw [cMin_eq_min] at hs
    have hneg : p.cpuUsage < 0 := by rw [hp]; norm_num
    have hu := absorb_cpuUsage_of_neg hneg r
    rw [List.foldl_cons, foldl_absorb_of_nonneg (by rw [hu]; exact hs) hmono.2
      fun x hx => hdt x (by simp [hx]), hu]
    rfl

namespace GroupView

/-- The operation does not remove `q`. -/
def Keeps (q : Pid) (v : GroupView) : Op → Prop
  | .update _ _ => True
  | .removeProcess pid => pid ≠ q
  | .dropMember node => v.members[node]? ≠ some q

instance (q : Pid) (v : GroupView) (op : Op) : Decidable (v.Keeps q op) :=
  match op with
  | .update _ _ => inferInstanceAs (Decidable True)
  | .removeProcess pid => inferInstanceAs (Decidable (pid ≠ q))
  | .dropMember node => inferInstanceAs (Decidable (v.members[node]? ≠ some q))

theorem forget_record_of_ne {v : GroupView} {pid q : Pid} (h : pid ≠ q) :
    (v.forget pid).record q = v.record q := by
  simp [GroupView.forget, h.symm]

/-- A dropped member takes its own record with it. -/
theorem apply_dropMember_of_ne {v : GroupView} {node : ℕ} {q : Pid}
    (h : v.members[node]? ≠ some q) :
    (v.apply (.dropMember node)).record q = v.record q ∧
      (v.apply (.dropMember node)).lastUpdate = v.lastUpdate := by
  simp only [GroupView.apply]
  split
  · exact ⟨rfl, rfl⟩
  · next pid hpid =>
    have hne : pid ≠ q := by
      rintro rfl
      exact h hpid
    exact ⟨forget_record_of_ne hne, rfl⟩

/-- A record that is never removed absorbs the long readings of its process and
nothing else. The induction is over the history and carries the timestamp. -/
theorem record_run {q : Pid} {v : GroupView} {p : Process} {ops : List Op}
    (hp : v.record q = some p) (hkeep : Runs.Along GroupView.apply (Keeps q) v ops) :
    (Runs.run GroupView.apply v ops).record q =
      some ((longReadings q v.lastUpdate ops).foldl absorb p) := by
  induction ops generalizing v p with
  | nil => exact hp
  | cons op ops ih =>
    rw [Runs.run_cons]
    cases op with
    | update now yielded =>
      have hrec : (v.apply (.update now yielded)).record q =
          observe (timediffInMs now v.lastUpdate) (some p)
            (yielded.find? fun tmp => tmp.pid = q) := by
        rw [← hp]; rfl
      have hlast : (v.apply (.update now yielded)).lastUpdate =
          if timediffInMs now v.lastUpdate < minDt then v.lastUpdate else now := rfl
      by_cases hdt : timediffInMs now v.lastUpdate < minDt
      · have hrec' : (v.apply (.update now yielded)).record q = some p := by
          rw [hrec]
          cases yielded.find? fun tmp => tmp.pid = q <;> simp [observe, hdt]
        rw [ih hrec' hkeep.2, hlast]
        simp [longReadings, hdt]
      · rw [if_neg hdt] at hlast
        cases hf : yielded.find? fun tmp => tmp.pid = q with
        | none =>
          rw [hf] at hrec
          rw [ih hrec hkeep.2, hlast]
          simp [longReadings, hdt, hf]
        | some tmp =>
          rw [hf] at hrec
          simp only [observe, if_neg hdt, refresh_eq_absorb] at hrec
          rw [ih hrec hkeep.2, hlast]
          simp [longReadings, hdt, hf]
    | removeProcess pid =>
      have hrec : (v.forget pid).record q = some p := (forget_record_of_ne hkeep.1).trans hp
      exact ih hrec hkeep.2
    | dropMember node =>
      obtain ⟨hrec, hlast⟩ := apply_dropMember_of_ne hkeep.1
      rw [ih (hrec.trans hp) hkeep.2, hlast]
      rfl

end GroupView

/-- A history up to the update that adds process `q` to the table. -/
structure Arrival (q : Pid) where
  target : Pid
  includeChildren : Bool
  start : Timespec
  earlier : List Op
  now : Timespec
  scan : List Process
  tmp : Process
  earlier_valid : ∀ op ∈ earlier, op.Valid
  scan_valid : ValidScan scan
  absent : (Runs.run apply (fresh target includeChildren start) earlier).lookup q = none
  scanned : scan.find? (fun tmp => tmp.pid = q) = some tmp

namespace Arrival

variable {q : Pid} (a : Arrival q)

/-- The group before the adding update. -/
def before : ProcessGroup := Runs.run apply (fresh a.target a.includeChildren a.start) a.earlier

/-- The group after it. -/
def group : ProcessGroup := a.before.update a.now a.scan

theorem before_sound : TableSound a.before :=
  (tableSound_fresh _ _ _).run a.earlier_valid

theorem group_sound : TableSound a.group :=
  (update_spec a.before_sound a.now a.scan_valid).1.table

theorem lookup_group : a.group.lookup q = some (newcomer a.tmp) := by
  rw [group, (update_spec a.before_sound a.now a.scan_valid).2.2, a.scanned]
  have habsent : a.before.lookup q = none := a.absent
  rw [habsent]
  rfl

end Arrival

/-- A stay of process `q`: it arrives, is never removed from the table, and its
CPU time as reported by the long updates never decreases. -/
structure Stay (q : Pid) extends Arrival q where
  later : List Op
  later_valid : ∀ op ∈ later, op.Valid
  kept : Runs.Along apply (fun g op => g.view.Keeps q op) toArrival.group later
  monotone : (tmp.cputime ::
    (longReadings q toArrival.group.lastUpdate later).map Reading.cputime).Pairwise (· ≤ ·)

namespace Stay

variable {q : Pid} (s : Stay q)

/-- The group at the end of the stay. -/
def final : ProcessGroup := Runs.run apply s.group s.later

/-- The readings of `q` after its arrival. -/
def readings : List Reading := longReadings q s.group.lastUpdate s.later

theorem lookup_final : s.final.lookup q = some (s.readings.foldl absorb (newcomer s.tmp)) := by
  have halong : Runs.Along apply (fun g op => op.Valid ∧ g.view.Keeps q op) s.group s.later :=
    Runs.along_and.mpr ⟨Runs.along_of_forall s.later_valid, s.kept⟩
  have hkeep : Runs.Along GroupView.apply (GroupView.Keeps q) s.group.view s.later := by
    refine Runs.Along.view (fun _ _ h hop => TableSound.apply h hop.1)
      (fun _ _ h hop => ⟨view_apply h hop.1, hop.2⟩) s.group_sound halong
  have hrec := GroupView.record_run (v := s.group.view) s.lookup_group hkeep
  rw [← view_run s.group_sound s.later_valid] at hrec
  exact hrec

/-- At the end of a stay the usage is the moving average of the shares reported
by the long updates, whatever else happened; two stays with the same CPU time at
arrival and the same long readings end with the same usage. -/
theorem usage_eq_average :
    (s.final.lookup q).map Process.cpuUsage = some (averageUsage s.tmp.cputime s.readings) ∧
      ∀ s' : Stay q, s'.tmp.cputime = s.tmp.cputime → s'.readings = s.readings →
        (s'.final.lookup q).map Process.cpuUsage = (s.final.lookup q).map Process.cpuUsage := by
  have hclosed : ∀ s : Stay q, (s.final.lookup q).map Process.cpuUsage =
      some (averageUsage s.tmp.cputime s.readings) := by
    intro s
    rw [lookup_final, Option.map_some]
    congr 1
    exact foldl_absorb_of_new rfl s.monotone fun r hr => minDt_le_of_mem_longReadings hr
  refine ⟨hclosed s, ?_⟩
  intro s' hc hr
  rw [hclosed, hclosed, hc, hr]

end Stay

/-- A process at half a CPU that arrives after its bucket neighbour; a short
update, two long ones and the removal of the neighbour follow. -/
def halfBusyStay : Stay 5 where
  target := 5
  includeChildren := true
  start := ⟨0, 0⟩
  earlier := [.update ⟨0, 0⟩ [⟨2053, 5, 0, 0, ['b']⟩]]
  now := ⟨0, 30000000⟩
  scan := [⟨2053, 5, 0, 0, ['b']⟩, halfBusy 0]
  tmp := halfBusy 0
  earlier_valid := by decide
  scan_valid := by decide
  absent := by decide +kernel
  scanned := by decide
  later := [.update ⟨0, 40000000⟩ [halfBusy 5], .update ⟨0, 130000000⟩ [halfBusy 50],
    .removeProcess 2053, .update ⟨0, 230000000⟩ [halfBusy 100]]
  later_valid := by decide
  kept := by decide +kernel
  monotone := by decide +kernel

theorem usage_eq_average_halfBusyStay :
    (halfBusyStay.final.lookup 5).map Process.cpuUsage =
      some (averageUsage 0 [⟨50, 100⟩, ⟨100, 100⟩]) :=
  have h := halfBusyStay.usage_eq_average.1
  (show halfBusyStay.readings = [⟨50, 100⟩, ⟨100, 100⟩] by decide +kernel) ▸ h

end CpuLimit
