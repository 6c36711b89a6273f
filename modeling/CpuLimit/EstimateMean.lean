import CpuLimit.UsageHistory

/-!
# Estimates in the mean

The usages that a process goes through during a stay, against the shares of one CPU that
the updates measured. Each estimate lags behind, but none of the CPU time is lost or counted
twice: the sums of both differ by less than twelve samples, however long the stay is.
-/
namespace CpuLimit

open Library ProcessGroup

namespace ProcessGroup

/-- The usage of `q` after every operation that samples it. -/
def sampledUsages (q : Pid) : ProcessGroup → List Op → List ℚ
  | _, [] => []
  | g, op :: ops =>
    ((longReadings q g.lastUpdate [op]).flatMap fun _ =>
      (((g.apply op).lookup q).map Process.cpuUsage).toList) ++ sampledUsages q (g.apply op) ops

end ProcessGroup

/-- The usages of a record after each of the readings. -/
def usagesAfter (p : Process) : List Reading → List ℚ
  | [] => []
  | r :: readings => (absorb p r).cpuUsage :: usagesAfter (absorb p r) readings

/-! ## Readings one operation at a time -/

/-- The timestamp after an operation. -/
def updatedAt (last : Timespec) : Op → Timespec
  | .update now _ => if timediffInMs now last < minDt then last else now
  | .removeProcess _ => last
  | .dropMember _ => last

theorem longReadings_cons (q : Pid) (last : Timespec) (op : Op) (ops : List Op) :
    longReadings q last (op :: ops) =
      longReadings q last [op] ++ longReadings q (updatedAt last op) ops := by
  cases op with
  | update now yielded =>
    simp only [longReadings, updatedAt]
    split_ifs with hdt
    · rfl
    · cases yielded.find? fun tmp => tmp.pid = q <;> rfl
  | removeProcess pid => rfl
  | dropMember node => rfl

theorem GroupView.lastUpdate_apply (v : GroupView) (op : Op) :
    (v.apply op).lastUpdate = updatedAt v.lastUpdate op := by
  cases op with
  | update now yielded => rfl
  | removeProcess pid => rfl
  | dropMember node =>
    simp only [GroupView.apply]
    split <;> rfl

/-- An operation samples a process at most once. -/
theorem longReadings_singleton (q : Pid) (last : Timespec) (op : Op) :
    longReadings q last [op] = [] ∨ ∃ r, longReadings q last [op] = [r] := by
  cases op with
  | update now yielded =>
    simp only [longReadings]
    split_ifs with hdt
    · exact Or.inl rfl
    · cases yielded.find? fun tmp => tmp.pid = q with
      | none => exact Or.inl rfl
      | some tmp => exact Or.inr ⟨_, rfl⟩
  | removeProcess pid => exact Or.inl rfl
  | dropMember node => exact Or.inl rfl

theorem usagesAfter_append (p : Process) (readings later : List Reading) :
    usagesAfter p (readings ++ later) =
      usagesAfter p readings ++ usagesAfter (readings.foldl absorb p) later := by
  induction readings generalizing p with
  | nil => rfl
  | cons r readings ih => rw [List.cons_append, usagesAfter, ih]; rfl

theorem length_usagesAfter (p : Process) (readings : List Reading) :
    (usagesAfter p readings).length = readings.length := by
  induction readings generalizing p with
  | nil => rfl
  | cons r readings ih => rw [usagesAfter, List.length_cons, List.length_cons, ih]

/-! ## The usages of a stay -/

/-- While `q` is not removed its usage goes through the absorbed readings. The induction is
over the operations. -/
theorem sampledUsages_eq {q : Pid} {g : ProcessGroup} (hg : TableSound g) {p : Process}
    (hp : g.lookup q = some p) {ops : List Op} (hops : ∀ op ∈ ops, op.Valid)
    (hkeep : Runs.Along apply (fun g op => g.view.Keeps q op) g ops) :
    sampledUsages q g ops = usagesAfter p (longReadings q g.lastUpdate ops) := by
  induction ops generalizing g p with
  | nil => rfl
  | cons op ops ih =>
    obtain ⟨hop, hrest⟩ := List.forall_mem_cons.mp hops
    have hview := view_apply hg hop
    have hrecord : (g.apply op).lookup q =
        some ((longReadings q g.lastUpdate [op]).foldl absorb p) := by
      have hfirst : Runs.Along GroupView.apply (GroupView.Keeps q) g.view [op] := ⟨hkeep.1, trivial⟩
      have hone := GroupView.record_run (v := g.view) hp hfirst
      rw [Runs.run_cons, Runs.run_nil, ← hview] at hone
      exact hone
    have hlast : (g.apply op).lastUpdate = updatedAt g.lastUpdate op := by
      have hv := GroupView.lastUpdate_apply g.view op
      rw [← hview] at hv
      exact hv
    have hsound : TableSound (g.apply op) := TableSound.apply hg hop
    rw [sampledUsages, longReadings_cons q g.lastUpdate op ops, usagesAfter_append,
      ih hsound hrecord hrest hkeep.2, hlast, hrecord]
    rcases longReadings_singleton q g.lastUpdate op with hnone | ⟨r, hone⟩
    · rw [hnone]
      rfl
    · rw [hone]
      rfl

/-- Once estimated, these are the moving averages. -/
theorem usagesAfter_of_nonneg {p : Process} {readings : List Reading} (hp : 0 ≤ p.cpuUsage)
    (hmono : (p.cputime :: readings.map Reading.cputime).Pairwise (· ≤ ·))
    (hdt : ∀ r ∈ readings, minDt ≤ r.dt) :
    usagesAfter p readings =
      MovingAverage.estimates alpha p.cpuUsage (shares p.cputime readings) := by
  induction readings generalizing p with
  | nil => rfl
  | cons r readings ih =>
    rw [List.map_cons, List.pairwise_cons] at hmono
    have hc : p.cputime ≤ r.cputime := hmono.1 _ (by simp)
    obtain ⟨hs, -⟩ := sample_mem_range (hdt r (by simp)) hc
    rw [cMin_eq_min] at hs
    have hu := absorb_cpuUsage_of_nonneg hp r
    have hu0 : 0 ≤ (absorb p r).cpuUsage := by
      rw [hu]
      exact MovingAverage.le_step alpha_nonneg alpha_le_one hp hs
    rw [usagesAfter, ih hu0 hmono.2 fun x hx => hdt x (by simp [hx]), hu, shares,
      MovingAverage.estimates]
    rfl

theorem mem_shares {c : ℚ} {readings : List Reading}
    (hmono : (c :: readings.map Reading.cputime).Pairwise (· ≤ ·))
    (hdt : ∀ r ∈ readings, minDt ≤ r.dt) : ∀ x ∈ shares c readings, 0 ≤ x ∧ x ≤ 1 := by
  induction readings generalizing c with
  | nil => exact fun x hx => absurd hx List.not_mem_nil
  | cons r readings ih =>
    rw [List.map_cons, List.pairwise_cons] at hmono
    have hsample := sample_mem_range (hdt r (by simp)) (hmono.1 r.cputime (by simp))
    rw [cMin_eq_min] at hsample
    exact List.forall_mem_cons.mpr ⟨hsample, ih hmono.2 fun x hx => hdt x (by simp [hx])⟩

/-- The first share becomes the first estimate; from then on the sums differ only by the
lag of the moving average. -/
theorem abs_sum_shares_sub_le {p : Process} {readings : List Reading} (hp : p.cpuUsage = -1)
    (hmono : (p.cputime :: readings.map Reading.cputime).Pairwise (· ≤ ·))
    (hdt : ∀ r ∈ readings, minDt ≤ r.dt) :
    |(shares p.cputime readings).sum - (usagesAfter p readings).sum| ≤ (1 - alpha) / alpha := by
  have hpos : 0 < alpha := by norm_num [alpha]
  cases readings with
  | nil =>
    rw [shares, usagesAfter, sub_self, abs_zero]
    exact div_nonneg (by norm_num [alpha]) hpos.le
  | cons r readings =>
    have hshares := mem_shares hmono hdt
    rw [shares, List.forall_mem_cons] at hshares
    rw [List.map_cons, List.pairwise_cons] at hmono
    have hneg : p.cpuUsage < 0 := by rw [hp]; norm_num
    have hu := absorb_cpuUsage_of_neg hneg r
    have hlater := usagesAfter_of_nonneg (p := absorb p r) (by rw [hu]; exact hshares.1.1) hmono.2
      fun x hx => hdt x (by simp [hx])
    rw [shares, usagesAfter, List.sum_cons, List.sum_cons, hlater, hu, add_sub_add_left_eq_sub]
    have hbound := MovingAverage.abs_sum_sub_le hpos alpha_le_one hshares.1 hshares.2
    rwa [sub_zero, mul_one] at hbound

/-- The usages of a stay, one for each of its samples, and the shares that were measured. -/
theorem Stay.usages_mean {q : Pid} (s : Stay q) :
    (sampledUsages q s.group s.later).length = s.readings.length ∧
      |(shares s.tmp.cputime s.readings).sum - (sampledUsages q s.group s.later).sum| ≤
        (1 - alpha) / alpha := by
  have husages : sampledUsages q s.group s.later = usagesAfter (newcomer s.tmp) s.readings :=
    sampledUsages_eq s.group_sound s.lookup_group s.later_valid s.kept
  have hcputime : (newcomer s.tmp).cputime = s.tmp.cputime := rfl
  have hclose := abs_sum_shares_sub_le (p := newcomer s.tmp) rfl s.monotone fun r hr =>
    minDt_le_of_mem_longReadings hr
  rw [hcputime] at hclose
  rw [husages]
  exact ⟨length_usagesAfter _ _, hclose⟩

/-- Two shares of a half, both estimated at once. -/
theorem usages_mean_halfBusyStay :
    sampledUsages 5 halfBusyStay.group halfBusyStay.later = [1 / 2, 1 / 2] ∧
      shares 0 halfBusyStay.readings = [1 / 2, 1 / 2] ∧
      |(shares 0 halfBusyStay.readings).sum -
          (sampledUsages 5 halfBusyStay.group halfBusyStay.later).sum| ≤ (1 - alpha) / alpha :=
  ⟨by decide +kernel, by decide +kernel, halfBusyStay.usages_mean.2⟩

end CpuLimit
