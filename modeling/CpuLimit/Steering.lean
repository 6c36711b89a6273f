import CpuLimit.LimitProcess
import CpuLimit.UsageEstimate

/-!
# Steering a steady group

Runs of `limit_process` over a fixed group whose members consume CPU time at
constant rates. The controller steers if the working rate falls while the group
is above the limit and rises while it is below. A member may use several CPUs,
but its samples are capped at one.
-/
namespace CpuLimit

open Library

/-! ## One adjustment -/

section Adjust

variable {limit pcpu w : ℚ}

theorem adjustRate_of_nonneg (limit w : ℚ) (hp : 0 ≤ pcpu) :
    adjustRate limit pcpu w = w * limit / max pcpu epsilon := by
  rw [adjustRate, if_neg (not_lt.mpr hp), divisor, cMax_eq_max]

/-- A usage above the limit lowers the rate, down to its lower end. -/
theorem clampRate_adjust_lt (hlimit : epsilon < limit) (hw : epsilon ≤ w ∧ w ≤ 1 - epsilon)
    (hp : limit < pcpu) : clampRate (adjustRate limit pcpu w) < w ∨ w = epsilon := by
  have heps := epsilon_pos
  have hpos : 0 < pcpu := by linarith
  have hlt : w * limit / max pcpu epsilon < w := by
    rw [max_eq_left (by linarith), div_lt_iff₀ hpos]
    exact mul_lt_mul_of_pos_left hp (by linarith)
  rw [adjustRate_of_nonneg limit w hpos.le, clampRate_eq]
  rcases hw.1.eq_or_lt with he | hgt
  · exact Or.inr he.symm
  · exact Or.inl (max_lt (lt_of_le_of_lt (min_le_left _ _) hlt) hgt)

/-- A usage below the limit raises the rate, up to its upper end. -/
theorem lt_clampRate_adjust (hlimit : epsilon < limit) (hw : epsilon ≤ w ∧ w ≤ 1 - epsilon)
    (hp0 : 0 ≤ pcpu) (hp : pcpu < limit) :
    w < clampRate (adjustRate limit pcpu w) ∨ w = 1 - epsilon := by
  have heps := epsilon_pos
  have hlt : w < w * limit / max pcpu epsilon := by
    rw [lt_div_iff₀ (lt_max_of_lt_right heps)]
    exact mul_lt_mul_of_pos_left (max_lt hp hlimit) (by linarith)
  rw [adjustRate_of_nonneg limit w hp0, clampRate_eq]
  rcases hw.2.eq_or_lt with he | hgt
  · exact Or.inr he
  · exact Or.inl (lt_max_of_lt_left (lt_min hlt hgt))

/-- A usage up to the limit does not lower the rate. -/
theorem le_clampRate_adjust (hlimit : epsilon < limit) (hw : epsilon ≤ w ∧ w ≤ 1 - epsilon)
    (hp0 : 0 ≤ pcpu) (hp : pcpu ≤ limit) : w ≤ clampRate (adjustRate limit pcpu w) := by
  have heps := epsilon_pos
  have hle : w ≤ w * limit / max pcpu epsilon := by
    rw [le_div_iff₀ (lt_max_of_lt_right heps)]
    exact mul_le_mul_of_nonneg_left (max_le hp hlimit.le) (by linarith)
  rw [adjustRate_of_nonneg limit w hp0, clampRate_eq]
  exact le_max_of_le_left (le_min hle hw.2)

end Adjust

/-! ## Usages by member -/

namespace ProcessGroup

/-- The estimate stored under a `pid`. -/
def usageOf (g : ProcessGroup) (pid : Pid) : ℚ :=
  ((g.lookup pid).map Process.cpuUsage).getD 0

theorem Coherent.usages_eq {g : ProcessGroup} (h : Coherent g) :
    g.usages = g.memberPids.map g.usageOf := by
  have hget : g.usages = (g.usages.map some).map fun u => u.getD 0 := by simp
  rw [hget, h.map_some_usages, List.map_map]
  rfl

end ProcessGroup

/-- A cycle over a nonempty group in which every signal is delivered keeps the
group that its update made. -/
theorem LimitState.limitCycle_of_delivered (ncpu : ℤ) (limit : ℚ) {s : LimitState} {i : CycleInput}
    (hne : (s.updated i).proclist.length ≠ 0)
    (hi : ∀ pid ∈ (s.updated i).memberPids, i.contFails pid = false ∧ i.stopFails pid = false) :
    s.limitCycle ncpu limit i =
      some ⟨s.updated i, s.duty.cycle ncpu limit (s.updated i).usages i.load⟩ := by
  have hcont := ProcessGroup.signalPass_of_delivered (fun pid hpid => (hi pid hpid).1)
  have hstop := ProcessGroup.signalPass_of_delivered (fun pid hpid => (hi pid hpid).2)
  simp only [limitCycle, if_neg hne, hcont, hstop, ite_self]

/-! ## Steady groups -/

/-- A process that consumes CPU time at a constant rate, in CPUs; `base` is its
CPU time at clock reading 0, in milliseconds. -/
structure SteadyMember where
  pid : Pid
  base : ℚ
  rate : ℚ

def SteadyMember.cputimeAt (m : SteadyMember) (t : Timespec) : ℚ := m.base + m.rate * t.ms

structure SteadyGroup where
  members : List SteadyMember
  nonempty : members ≠ []
  pid_nodup : (members.map SteadyMember.pid).Nodup
  pid_pos : ∀ m ∈ members, 0 < m.pid
  rate_nonneg : ∀ m ∈ members, 0 ≤ m.rate

namespace SteadyGroup

variable (G : SteadyGroup)

/-- The consumption of the group, in CPUs. -/
def total : ℚ := (G.members.map SteadyMember.rate).sum

/-- The scan at clock reading `now` lists the members, in any order. -/
def Reports (now : Timespec) (yielded : List Process) : Prop :=
  (yielded.map fun p => (p.pid, p.cputime)).Perm
    (G.members.map fun m => (m.pid, m.cputimeAt now))

/-- No member is lost in the signal passes of the cycle. -/
def Delivers (i : CycleInput) : Prop :=
  ∀ m ∈ G.members, i.contFails m.pid = false ∧ i.stopFails m.pid = false

variable {G} {now : Timespec} {yielded : List Process}

theorem Reports.pids (h : G.Reports now yielded) :
    (yielded.map Process.pid).Perm (G.members.map SteadyMember.pid) := by
  simpa [List.map_map, Function.comp_def] using h.map Prod.fst

theorem Reports.validScan (h : G.Reports now yielded) : ProcessGroup.ValidScan yielded := by
  refine ⟨h.pids.nodup_iff.mpr G.pid_nodup, fun tmp htmp => ?_⟩
  have hmem : tmp.pid ∈ G.members.map SteadyMember.pid :=
    h.pids.mem_iff.mp (List.mem_map_of_mem htmp)
  obtain ⟨m, hm, hpid⟩ := List.mem_map.mp hmem
  rw [← hpid]
  exact G.pid_pos m hm

/-- The descriptor of a member carries its CPU time at the clock reading. -/
theorem Reports.find (h : G.Reports now yielded) {m : SteadyMember} (hm : m ∈ G.members) :
    ∃ tmp, (yielded.find? fun x => x.pid = m.pid) = some tmp ∧ tmp ∈ yielded ∧
      tmp.cputime = m.cputimeAt now := by
  have hpair : (m.pid, m.cputimeAt now) ∈ yielded.map fun p => (p.pid, p.cputime) :=
    h.mem_iff.mpr (List.mem_map_of_mem hm)
  obtain ⟨tmp, htmp, he⟩ := List.mem_map.mp hpair
  have hpid : tmp.pid = m.pid := congrArg Prod.fst he
  exact ⟨tmp, h.validScan.find?_eq_some_iff.mpr ⟨htmp, hpid⟩, htmp, congrArg Prod.snd he⟩

/-- The table holds every member with the CPU time of clock reading `measured`
and an estimate that meets `P`. -/
structure Holds (G : SteadyGroup) (measured : Timespec) (P : SteadyMember → ℚ → Prop)
    (g : ProcessGroup) : Prop where
  sound : ProcessGroup.TableSound g
  record : ∀ m ∈ G.members, ∃ p, g.lookup m.pid = some p ∧
    p.cputime = m.cputimeAt measured ∧ P m p.cpuUsage

/-- The estimate after a sample of `share`. -/
def nextUsage (usage share : ℚ) : ℚ :=
  if usage < 0 then min share 1 else MovingAverage.step alpha usage (min share 1)

theorem refresh_cpuUsage_eq (dt : ℚ) (tmp p : Process) :
    (refresh dt tmp p).cpuUsage = nextUsage p.cpuUsage ((tmp.cputime - p.cputime) / dt) := by
  simp only [refresh, nextUsage, MovingAverage.step, cMin_eq_min]

theorem nextUsage_neg_one (share : ℚ) : nextUsage (-1) share = min share 1 := by
  norm_num [nextUsage]

variable {measured : Timespec} {P Q : SteadyMember → ℚ → Prop} {g : ProcessGroup}

theorem Holds.mono (h : Holds G measured P g) (hPQ : ∀ m ∈ G.members, ∀ u, P m u → Q m u) :
    Holds G measured Q g := by
  refine ⟨h.sound, fun m hm => ?_⟩
  obtain ⟨p, hp, hcpu, hP⟩ := h.record m hm
  exact ⟨p, hp, hcpu, hPQ m hm _ hP⟩

/-- A short update keeps all records. -/
theorem Holds.update_short (h : Holds G measured P g) (hr : G.Reports now yielded)
    (hdt : timediffInMs now g.lastUpdate < minDt) :
    Holds G measured P (g.update now yielded) := by
  obtain ⟨hc, -, hl⟩ := ProcessGroup.update_spec h.sound now hr.validScan
  refine ⟨hc.table, fun m hm => ?_⟩
  obtain ⟨p, hp, hcpu, hP⟩ := h.record m hm
  obtain ⟨tmp, hf, -, -⟩ := hr.find hm
  refine ⟨p, ?_, hcpu, hP⟩
  rw [hl, hp, hf, ProcessGroup.observe, if_pos hdt]

/-- A long update samples every member over the time since `measured`, and
divides by the time since the last update. -/
theorem Holds.update_long (h : Holds G measured P g) (hr : G.Reports now yielded)
    (hdt : minDt ≤ timediffInMs now g.lastUpdate)
    (hstep : ∀ m ∈ G.members, ∀ u, P m u → Q m (nextUsage u
      (m.rate * timediffInMs now measured / timediffInMs now g.lastUpdate))) :
    Holds G now Q (g.update now yielded) := by
  obtain ⟨hc, -, hl⟩ := ProcessGroup.update_spec h.sound now hr.validScan
  refine ⟨hc.table, fun m hm => ?_⟩
  obtain ⟨p, hp, hcpu, hP⟩ := h.record m hm
  obtain ⟨tmp, hf, -, htmp⟩ := hr.find hm
  refine ⟨refresh (timediffInMs now g.lastUpdate) tmp p, ?_, htmp, ?_⟩
  · rw [hl, hp, hf, ProcessGroup.observe, if_neg (not_lt.mpr hdt)]
  · have hdiff : tmp.cputime - p.cputime = m.rate * timediffInMs now measured := by
      rw [htmp, hcpu, timediffInMs_eq, SteadyMember.cputimeAt, SteadyMember.cputimeAt]
      ring
    rw [refresh_cpuUsage_eq, hdiff]
    exact hstep m hm _ hP

/-- After an update the summing loop reads one estimate for each member. -/
theorem usages_update_perm (h : ProcessGroup.TableSound g) (hr : G.Reports now yielded) :
    (g.update now yielded).usages.Perm
      (G.members.map fun m => (g.update now yielded).usageOf m.pid) := by
  obtain ⟨hc, hm, -⟩ := ProcessGroup.update_spec h now hr.validScan
  rw [hc.usages_eq, hm]
  simpa [List.map_map, Function.comp_def] using
    hr.pids.map (g.update now yielded).usageOf

theorem Holds.usageOf (h : Holds G measured P g) {m : SteadyMember} (hm : m ∈ G.members) :
    P m (g.usageOf m.pid) := by
  obtain ⟨p, hp, -, hP⟩ := h.record m hm
  simpa [ProcessGroup.usageOf, hp] using hP

/-- Bounds of the estimates, member by member, bound the summed usage. -/
theorem Holds.sumUsage_mem {lo hi : SteadyMember → ℚ} (hs : ProcessGroup.TableSound g)
    (hr : G.Reports now yielded)
    (h : Holds G measured (fun m u => lo m ≤ u ∧ u ≤ hi m) (g.update now yielded))
    (hlo : ∀ m ∈ G.members, 0 ≤ lo m) :
    (G.members.map lo).sum ≤ sumUsage (g.update now yielded).usages ∧
      sumUsage (g.update now yielded).usages ≤ (G.members.map hi).sum := by
  have hperm := usages_update_perm hs hr
  have hne : (g.update now yielded).usages ≠ [] := by
    intro he
    rw [he, List.nil_perm, List.map_eq_nil_iff] at hperm
    exact G.nonempty hperm
  have hnonneg : ∀ u ∈ (g.update now yielded).usages, 0 ≤ u := by
    intro u hu
    obtain ⟨m, hm, rfl⟩ := List.mem_map.mp (hperm.mem_iff.mp hu)
    exact (hlo m hm).trans (h.usageOf hm).1
  rw [sumUsage_of_nonneg hne hnonneg, hperm.sum_eq]
  exact ⟨List.sum_le_sum fun m hm => (h.usageOf hm).1,
    List.sum_le_sum fun m hm => (h.usageOf hm).2⟩

/-- A cycle over the steady group does not exit, and keeps the updated group. -/
theorem limitCycle_eq (ncpu : ℤ) (limit : ℚ) {s : LimitState} {i : CycleInput}
    (hs : ProcessGroup.TableSound s.group) (hr : G.Reports i.now i.yielded) (hd : G.Delivers i) :
    s.limitCycle ncpu limit i =
      some ⟨s.updated i, s.duty.cycle ncpu limit (s.updated i).usages i.load⟩ := by
  have hpids : (s.updated i).memberPids = i.yielded.map Process.pid :=
    (ProcessGroup.update_spec hs i.now hr.validScan).2.1
  apply LimitState.limitCycle_of_delivered
  · rw [LimitState.updated, ProcessGroup.length_proclist_update hs i.now hr.validScan]
    intro h0
    have hlen := hr.length_eq
    rw [List.length_map, List.length_map, h0] at hlen
    exact G.nonempty (List.length_eq_zero_iff.mp hlen.symm)
  · intro pid hpid
    rw [hpids] at hpid
    obtain ⟨m, hm, rfl⟩ := List.mem_map.mp (hr.pids.mem_iff.mp hpid)
    exact hd m hm

end SteadyGroup

/-! ## Steady runs -/

/-- A run over a steady group: the initial update and at least two cycles, the
first of which sets the rate from the limit. Later updates are sampled. -/
structure SteadyRun (G : SteadyGroup) where
  target : Pid
  includeChildren : Bool
  start : Timespec
  built : Timespec
  initial : List Process
  timeSlot : ℚ
  first : CycleInput
  second : CycleInput
  rest : List CycleInput
  start_le : start.ms ≤ built.ms
  built_le : built.ms ≤ first.now.ms
  initial_reports : G.Reports built initial
  reports : ∀ i ∈ first :: second :: rest, G.Reports i.now i.yielded
  delivers : ∀ i ∈ first :: second :: rest, G.Delivers i
  spaced : (first :: second :: rest).IsChain fun i j => minDt ≤ timediffInMs j.now i.now
  fromLimit : (LimitState.enter target includeChildren start built initial timeSlot).SetsFromLimit
    first

/-- The cycle moves the rate toward the limit, unless it is already at that end. -/
def Steers (limit total : ℚ) (s t : LimitState) : Prop :=
  (limit < total → t.duty.workingrate < s.duty.workingrate ∨ s.duty.workingrate = epsilon) ∧
  (total < limit → s.duty.workingrate < t.duty.workingrate ∨ s.duty.workingrate = 1 - epsilon)

namespace SteadyRun

variable {G : SteadyGroup} (r : SteadyRun G)

def enter : LimitState :=
  LimitState.enter r.target r.includeChildren r.start r.built r.initial r.timeSlot

/-- Every cycle after the first one steers. -/
def AllSteer (ncpu : ℤ) (limit : ℚ) : Prop :=
  ∃ s, r.enter.limitCycle ncpu limit r.first = some s ∧
    Runs.AlongPartial (LimitState.limitCycle ncpu limit)
      (fun s _ t => Steers limit G.total s t) s (r.second :: r.rest)

/-- The part of the first sampled interval in which the CPU time was counted:
the initial update may store it later than the timestamp that it keeps. -/
def countedShare : ℚ :=
  timediffInMs r.second.now r.built /
    timediffInMs r.second.now (initialUpdateTime r.start r.built)

/-- The first estimate of a member. -/
def firstEstimate (m : SteadyMember) : ℚ := min (m.rate * r.countedShare) 1

theorem initialUpdateTime_le : (initialUpdateTime r.start r.built).ms ≤ r.built.ms := by
  unfold initialUpdateTime
  split_ifs
  · exact r.start_le
  · exact le_rfl

/-- The second cycle samples, over an interval that contains the counted one. -/
theorem second_times : minDt ≤ timediffInMs r.second.now (initialUpdateTime r.start r.built) ∧
    0 ≤ r.countedShare ∧ r.countedShare ≤ 1 := by
  have hgap : minDt ≤ timediffInMs r.second.now r.first.now :=
    (List.isChain_cons_cons.mp r.spaced).1
  have hmin : (0 : ℚ) < minDt := by norm_num [minDt]
  have h1 := r.initialUpdateTime_le
  have h2 := r.built_le
  rw [timediffInMs_eq] at hgap
  have hdt : minDt ≤ timediffInMs r.second.now (initialUpdateTime r.start r.built) := by
    rw [timediffInMs_eq]
    linarith
  refine ⟨hdt, div_nonneg ?_ (hmin.le.trans hdt), (div_le_one (lt_of_lt_of_le hmin hdt)).mpr ?_⟩
  · rw [timediffInMs_eq]
    linarith
  · rw [timediffInMs_eq, timediffInMs_eq]
    linarith

theorem firstEstimate_mem {m : SteadyMember} (hm : m ∈ G.members) :
    0 ≤ r.firstEstimate m ∧ r.firstEstimate m ≤ min m.rate 1 := by
  have hrate := G.rate_nonneg m hm
  obtain ⟨-, h0, h1⟩ := r.second_times
  exact ⟨le_min (mul_nonneg hrate h0) zero_le_one,
    min_le_min_right 1 (mul_le_of_le_one_right hrate h1)⟩

/-- The first update of the loop takes no sample: with nonnegative rates that is
what setting the rate from the limit means. -/
theorem first_short :
    timediffInMs r.first.now (initialUpdateTime r.start r.built) < minDt := by
  have hreports := r.reports r.first (by simp)
  have hun := (setsFromLimit_enter_iff r.target r.includeChildren r.start r.built r.timeSlot
    r.initial_reports.validScan hreports.validScan).mp r.fromLimit
  rcases hun with hun | hun
  · exact hun
  · obtain ⟨m, hm⟩ := List.exists_mem_of_ne_nil _ G.nonempty
    obtain ⟨p, hfp, hp, hpc⟩ := r.initial_reports.find hm
    obtain ⟨tmp, hft, htmp, htc⟩ := hreports.find hm
    have hpid : p.pid = tmp.pid := by
      rw [(r.initial_reports.validScan.find?_eq_some_iff.mp hfp).2,
        (hreports.validScan.find?_eq_some_iff.mp hft).2]
    have hlost := hun tmp htmp p hp hpid
    have hmono := mul_le_mul_of_nonneg_left r.built_le (G.rate_nonneg m hm)
    rw [hpc, htc, SteadyMember.cputimeAt, SteadyMember.cputimeAt] at hlost
    linarith

theorem holds_initial : G.Holds r.built (fun _ u => u = -1) r.enter.group := by
  have hv := r.initial_reports.validScan
  refine ⟨ProcessGroup.tableSound_initProcessGroup _ _ _ _ hv, fun m hm => ?_⟩
  obtain ⟨p, hf, -, hpc⟩ := r.initial_reports.find hm
  refine ⟨newcomer p, ?_, hpc, rfl⟩
  exact (ProcessGroup.lookup_initProcessGroup _ _ _ _ hv m.pid).trans (by rw [hf]; rfl)

/-- The first cycle keeps the records and the timestamp, and sets the rate. -/
theorem first_cycle (ncpu : ℤ) (limit : ℚ) :
    ∃ s, r.enter.limitCycle ncpu limit r.first = some s ∧
      G.Holds r.built (fun _ u => u = -1) s.group ∧
      s.group.lastUpdate = initialUpdateTime r.start r.built ∧
      s.duty.workingrate = clampRate limit := by
  have hreports := r.reports r.first (by simp)
  have hlast : r.enter.group.lastUpdate = initialUpdateTime r.start r.built :=
    ProcessGroup.lastUpdate_initProcessGroup _ _ _ _
  have hshort : timediffInMs r.first.now r.enter.group.lastUpdate < minDt := by
    rw [hlast]
    exact r.first_short
  refine ⟨_, G.limitCycle_eq ncpu limit r.holds_initial.sound hreports
    (r.delivers r.first (by simp)), r.holds_initial.update_short hreports hshort, ?_, ?_⟩
  · rw [LimitState.updated, ProcessGroup.update_lastUpdate, if_pos hshort, hlast]
  · exact congrArg clampRate (adjustRate_of_neg limit _ r.fromLimit)

/-- The second cycle gives every member its first estimate. -/
theorem second_cycle (ncpu : ℤ) (limit : ℚ) {s : LimitState}
    (h : G.Holds r.built (fun _ u => u = -1) s.group)
    (hlast : s.group.lastUpdate = initialUpdateTime r.start r.built) :
    ∃ t, s.limitCycle ncpu limit r.second = some t ∧
      G.Holds r.second.now (fun m u => u = r.firstEstimate m) t.group ∧
      t.group.lastUpdate = r.second.now ∧
      t.duty.workingrate = clampRate (adjustRate limit
        (G.members.map r.firstEstimate).sum s.duty.workingrate) := by
  have hreports := r.reports r.second (by simp)
  have hlong : minDt ≤ timediffInMs r.second.now s.group.lastUpdate := by
    rw [hlast]
    exact r.second_times.1
  have hholds : G.Holds r.second.now (fun m u => u = r.firstEstimate m)
      (s.updated r.second) := by
    refine h.update_long hreports hlong fun m _ u hu => ?_
    rw [hu, hlast, SteadyGroup.nextUsage_neg_one, firstEstimate, countedShare, mul_div_assoc]
  have hsum := SteadyGroup.Holds.sumUsage_mem h.sound hreports
    (hholds.mono fun m _ u hu => And.intro hu.ge hu.le) fun m hm => (r.firstEstimate_mem hm).1
  refine ⟨_, G.limitCycle_eq ncpu limit h.sound hreports (r.delivers r.second (by simp)),
    hholds, ?_, ?_⟩
  · rw [LimitState.updated, ProcessGroup.update_lastUpdate, if_neg (not_lt.mpr hlong)]
  · rw [← le_antisymm hsum.2 hsum.1]
    rfl

end SteadyRun

/-- From estimates between `lo` and the capped rates on, every cycle samples the
capped rates: the estimates stay between, and if `lo` already reveals a group
above the limit then every cycle steers. The induction is over the inputs. -/
theorem SteadyGroup.alongPartial_steers {G : SteadyGroup} (ncpu : ℤ) {limit : ℚ}
    (hlimit : epsilon < limit) {lo : SteadyMember → ℚ} (hlo : ∀ m ∈ G.members, 0 ≤ lo m)
    (hreveal : limit < G.total → limit < (G.members.map lo).sum)
    {inputs : List CycleInput} (hreports : ∀ i ∈ inputs, G.Reports i.now i.yielded)
    (hdelivers : ∀ i ∈ inputs, G.Delivers i) {s : LimitState}
    (hspaced : inputs.IsChain fun i j => minDt ≤ timediffInMs j.now i.now)
    (hhead : ∀ i ∈ inputs.head?, minDt ≤ timediffInMs i.now s.group.lastUpdate)
    (hs : G.Holds s.group.lastUpdate (fun m u => lo m ≤ u ∧ u ≤ min m.rate 1) s.group)
    (hrate : epsilon ≤ s.duty.workingrate ∧ s.duty.workingrate ≤ 1 - epsilon) :
    Runs.AlongPartial (LimitState.limitCycle ncpu limit)
      (fun s _ t => Steers limit G.total s t) s inputs := by
  induction inputs generalizing s with
  | nil => trivial
  | cons i inputs ih =>
    have hri := hreports i (by simp)
    have hlong := hhead i (by simp)
    have hdt : timediffInMs i.now s.group.lastUpdate ≠ 0 := by
      have hmin : (0 : ℚ) < minDt := by norm_num [minDt]
      exact (lt_of_lt_of_le hmin hlong).ne'
    have hnext : G.Holds i.now (fun m u => lo m ≤ u ∧ u ≤ min m.rate 1) (s.updated i) := by
      refine hs.update_long hri hlong fun m hm u hu => ?_
      obtain ⟨hlow, hhigh⟩ := hu
      have hu0 : 0 ≤ u := (hlo m hm).trans hlow
      rw [mul_div_cancel_right₀ _ hdt, nextUsage, if_neg (not_lt.mpr hu0)]
      exact ⟨MovingAverage.le_step alpha_nonneg alpha_le_one hlow (hlow.trans hhigh),
        MovingAverage.step_le alpha_nonneg alpha_le_one hhigh le_rfl⟩
    obtain ⟨hge, hle⟩ := SteadyGroup.Holds.sumUsage_mem hs.sound hri hnext hlo
    have htotal : (G.members.map fun m => min m.rate 1).sum ≤ G.total :=
      List.sum_le_sum fun m _ => min_le_left _ _
    have hlast : (s.updated i).lastUpdate = i.now := by
      rw [LimitState.updated, ProcessGroup.update_lastUpdate, if_neg (not_lt.mpr hlong)]
    rw [Runs.alongPartial_cons_iff
      (G.limitCycle_eq ncpu limit hs.sound hri (hdelivers i (by simp)))]
    refine ⟨⟨fun habove => ?_, fun hbelow => ?_⟩, ?_⟩
    · exact clampRate_adjust_lt hlimit hrate ((hreveal habove).trans_le hge)
    · refine lt_clampRate_adjust hlimit hrate ?_ (lt_of_le_of_lt (hle.trans htotal) hbelow)
      exact (List.sum_nonneg (by simpa using hlo)).trans hge
    · refine ih (fun j hj => hreports j (by simp [hj])) (fun j hj => hdelivers j (by simp [hj]))
        hspaced.tail ?_ ?_ (clampRate_mem _)
      · intro j hj
        dsimp only
        rw [hlast]
        exact hspaced.rel_head? hj
      · dsimp only
        rw [hlast]
        exact hnext

namespace SteadyRun

variable {G : SteadyGroup} (r : SteadyRun G)

/-- All cycles after the first steer exactly if the first estimates reveal a group
above the limit. The later estimates only approach the rates, capped at one CPU. -/
theorem allSteer_iff (ncpu : ℤ) {limit : ℚ} (hlimit : epsilon < limit) :
    r.AllSteer ncpu limit ↔
      (limit < G.total → limit < (G.members.map r.firstEstimate).sum) := by
  obtain ⟨s, hfirst, hs, hlast, hrate⟩ := r.first_cycle ncpu limit
  obtain ⟨t, hsecond, ht, htlast, htrate⟩ := r.second_cycle ncpu limit hs hlast
  have hmem : epsilon ≤ s.duty.workingrate ∧ s.duty.workingrate ≤ 1 - epsilon := by
    rw [hrate]
    exact clampRate_mem limit
  have hsum0 : 0 ≤ (G.members.map r.firstEstimate).sum :=
    List.sum_nonneg (by simpa using fun m hm => (r.firstEstimate_mem hm).1)
  have hsum : (G.members.map r.firstEstimate).sum ≤ G.total :=
    List.sum_le_sum fun m hm => (r.firstEstimate_mem hm).2.trans (min_le_left _ _)
  constructor
  · intro ⟨s', hs', hall⟩ habove
    cases hfirst.symm.trans hs'
    have hsteers := ((Runs.alongPartial_cons_iff hsecond).mp hall).1.1 habove
    by_contra hhidden
    have hkeep := le_clampRate_adjust hlimit hmem hsum0 (not_lt.mp hhidden)
    rcases hsteers with hdown | hend
    · rw [htrate] at hdown
      exact absurd hdown (not_lt.mpr hkeep)
    · rw [hrate] at hend
      exact (epsilon_lt_clampRate hlimit).ne' hend
  · intro hreveal
    refine ⟨s, hfirst, (Runs.alongPartial_cons_iff hsecond).mpr ⟨⟨?_, ?_⟩, ?_⟩⟩
    · intro habove
      rw [htrate]
      exact clampRate_adjust_lt hlimit hmem (hreveal habove)
    · intro hbelow
      rw [htrate]
      exact lt_clampRate_adjust hlimit hmem hsum0 (lt_of_le_of_lt hsum hbelow)
    · have hchain := (List.isChain_cons_cons.mp r.spaced).2
      refine SteadyGroup.alongPartial_steers ncpu hlimit
        (fun m hm => (r.firstEstimate_mem hm).1) hreveal
        (fun i hi => r.reports i (by simp [hi])) (fun i hi => r.delivers i (by simp [hi]))
        hchain.tail ?_ ?_ ?_
      · intro i hi
        rw [htlast]
        exact hchain.rel_head? hi
      · rw [htlast]
        exact ht.mono fun m hm u hu => ⟨hu.ge, hu.le.trans (r.firstEstimate_mem hm).2⟩
      · rw [htrate]
        exact clampRate_mem _

end SteadyRun

/-! ## A lone process -/

/-- The group of one process that keeps `rate` CPUs busy. -/
def loneGroup (rate : ℚ) (h : 0 ≤ rate) : SteadyGroup where
  members := [⟨5, 0, rate⟩]
  nonempty := by simp
  pid_nodup := by simp
  pid_pos := by simp
  rate_nonneg := by simpa using h

def loneScan (rate : ℚ) (ms : ℤ) : List Process := [⟨5, 1, rate * ms, 0, ['b']⟩]

def loneCycle (rate : ℚ) (ms : ℤ) : CycleInput :=
  ⟨⟨0, ms * 1000000⟩, loneScan rate ms, none, fun _ => false, fun _ => false⟩

theorem loneGroup_reports (rate : ℚ) (h : 0 ≤ rate) (ms : ℤ) :
    (loneGroup rate h).Reports ⟨0, ms * 1000000⟩ (loneScan rate ms) := by
  have hms : (Timespec.mk 0 (ms * 1000000)).ms = ms := by
    simp [Timespec.ms]
  simp [SteadyGroup.Reports, loneGroup, loneScan, SteadyMember.cputimeAt, hms]

/-- Started at clock reading 0, with cycles at 1, 31 and 61 milliseconds. -/
def loneRun (rate : ℚ) (h : 0 ≤ rate) : SteadyRun (loneGroup rate h) where
  target := 5
  includeChildren := false
  start := ⟨0, 0⟩
  built := ⟨0, 0⟩
  initial := loneScan rate 0
  timeSlot := timeSlotBase
  first := loneCycle rate 1
  second := loneCycle rate 31
  rest := [loneCycle rate 61]
  start_le := le_rfl
  built_le := by norm_num [Timespec.ms, loneCycle]
  initial_reports := loneGroup_reports rate h 0
  reports := by
    intro i hi
    simp only [List.mem_cons, List.not_mem_nil, or_false] at hi
    rcases hi with rfl | rfl | rfl
    · exact loneGroup_reports rate h 1
    · exact loneGroup_reports rate h 31
    · exact loneGroup_reports rate h 61
  delivers := by
    intro i hi
    simp only [List.mem_cons, List.not_mem_nil, or_false] at hi
    rcases hi with rfl | rfl | rfl <;> exact fun m _ => ⟨rfl, rfl⟩
  spaced := by norm_num [loneCycle, timediffInMs, minDt]
  fromLimit := by
    have hvalid : ∀ ms, ProcessGroup.ValidScan (loneScan rate ms) := fun ms =>
      (loneGroup_reports rate h ms).validScan
    refine (setsFromLimit_enter_iff 5 false _ _ _ (hvalid 0) (hvalid 1)).mpr (Or.inl ?_)
    norm_num [initialUpdateTime, timediffInMs, loneCycle, minDt]

/-- Half a CPU is steered toward a limit of a quarter. -/
theorem allSteer_iff_halfCpu : (loneRun (1 / 2) (by norm_num)).AllSteer 1 (1 / 4) :=
  ((loneRun (1 / 2) (by norm_num)).allSteer_iff 1 (by norm_num [epsilon])).mpr
    (by decide +kernel)

/-- The working rates after the first and the second cycle of the lone run. -/
def loneRates (ncpu : ℤ) (limit rate : ℚ) (h : 0 ≤ rate) : Option (ℚ × ℚ) :=
  ((loneRun rate h).enter.limitCycle ncpu limit (loneRun rate h).first).bind fun s =>
    (s.limitCycle ncpu limit (loneRun rate h).second).map fun t =>
      (s.duty.workingrate, t.duty.workingrate)

theorem steers_of_allSteer {ncpu : ℤ} {limit rate : ℚ} {h : 0 ≤ rate} {w w' : ℚ}
    (hall : (loneRun rate h).AllSteer ncpu limit)
    (hrates : loneRates ncpu limit rate h = some (w, w'))
    (habove : limit < (loneGroup rate h).total) : w' < w ∨ w = epsilon := by
  obtain ⟨s, hs, t, ht, hsteers, -⟩ := hall
  simp only [loneRates, hs, ht, Option.bind_some, Option.map_some, Option.some.injEq,
    Prod.mk.injEq] at hrates
  rw [← hrates.1, ← hrates.2]
  exact hsteers.1 habove

theorem three_nonneg : (0 : ℚ) ≤ 3 := by
  norm_num

/-- Three busy threads of one process are not slowed down to a limit of two CPUs:
the capped estimate is one, and the rate stays at its upper end. -/
theorem not_allSteer_threeThreads :
    epsilon < 2 ∧ (2 : ℚ) < (loneGroup 3 three_nonneg).total ∧
      (loneGroup 3 three_nonneg).total ≤ 4 ∧
      ¬ (loneRun 3 three_nonneg).AllSteer 4 2 := by
  have habove : (2 : ℚ) < (loneGroup 3 three_nonneg).total := by decide +kernel
  have hrates : loneRates 4 2 3 three_nonneg = some (1 - epsilon, 1 - epsilon) := by
    decide +kernel
  refine ⟨by norm_num [epsilon], habove, by decide +kernel, fun hall => ?_⟩
  rcases steers_of_allSteer hall hrates habove with hdown | hend
  · exact lt_irrefl _ hdown
  · exact epsilon_lt_one_sub.ne' hend

end CpuLimit
