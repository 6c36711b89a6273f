import CpuLimit.LimitProcess
import CpuLimit.SamplingWindow

/-!
# Usages that are applied again

A cycle multiplies the working rate by the limit over the usage it finds. The
update in front of it may have sampled nothing: an interval shorter than `MIN_DT`,
or one that the clock measures as negative, leaves every usage as it was. The
limiter is therefore run together with the set of processes that were sampled
since the rate was last multiplied.
-/
namespace CpuLimit

open Library ProcessGroup

/-- The processes whose usage the summing loop takes in. -/
def counted (g : ProcessGroup) : List Pid :=
  (g.proclist.filter fun id => 0 ≤ (g.records.cell id).cpuUsage).map g.records.pidOf

theorem mem_counted {g : ProcessGroup} {pid : Pid} : pid ∈ counted g ↔
    ∃ id ∈ g.proclist, 0 ≤ (g.records.cell id).cpuUsage ∧ g.records.pidOf id = pid := by
  simp [counted, and_assoc]

theorem LimitState.setsFromLimit_iff_counted (s : LimitState) (i : CycleInput) :
    s.SetsFromLimit i ↔ counted (s.updated i) = [] := by
  simp [SetsFromLimit, sumUsage_neg_iff, usages, counted]

/-- After an update the counted processes are scanned ones whose record has an estimate. -/
theorem mem_counted_update_iff {g : ProcessGroup} (h : TableSound g) (now : Timespec)
    {yielded : List Process} (hv : ValidScan yielded) (pid : Pid) :
    pid ∈ counted (g.update now yielded) ↔ ∃ tmp ∈ yielded, tmp.pid = pid ∧
      ∃ p, observe (timediffInMs now g.lastUpdate) (g.lookup pid) (some tmp) = some p ∧
        0 ≤ p.cpuUsage := by
  obtain ⟨hc, hm, hl⟩ := update_spec h now hv
  have hfound : ∀ id ∈ (g.update now yielded).proclist,
      (g.update now yielded).lookup ((g.update now yielded).records.pidOf id) =
        some ((g.update now yielded).records.cell id) := by
    intro id hid
    rw [lookup, hc.found id hid, Option.map_some]
  rw [mem_counted]
  constructor
  · rintro ⟨id, hid, husage, rfl⟩
    have hmem : (g.update now yielded).records.pidOf id ∈ yielded.map Process.pid := by
      rw [← hm]
      exact List.mem_map_of_mem hid
    obtain ⟨tmp, htmp, hpid⟩ := List.mem_map.mp hmem
    refine ⟨tmp, htmp, hpid, _, ?_, husage⟩
    rw [← hfound id hid, hl, hv.find?_eq_some_iff.mpr ⟨htmp, hpid⟩]
  · rintro ⟨tmp, htmp, rfl, p, hp, husage⟩
    have hmem : tmp.pid ∈ (g.update now yielded).memberPids := by
      rw [hm]
      exact List.mem_map_of_mem htmp
    obtain ⟨id, hid, hpid⟩ := List.mem_map.mp hmem
    refine ⟨id, hid, ?_, hpid⟩
    have hcell := hfound id hid
    rw [hpid, hl, hv.find?_eq_some_iff.mpr ⟨htmp, rfl⟩, hp] at hcell
    rw [← Option.some.inj hcell]
    exact husage

/-- The limiter, and the processes sampled since the last multiplication. -/
structure Sampler where
  state : LimitState
  sampled : Pid → Bool

namespace Sampler

def enter (target : Pid) (includeChildren : Bool) (start built : Timespec)
    (initial : List Process) (timeSlot : ℚ) : Sampler :=
  ⟨LimitState.enter target includeChildren start built initial timeSlot, fun _ => false⟩

/-- The processes sampled up to the multiplication in a cycle. -/
def sampledBy (t : Sampler) (i : CycleInput) (pid : Pid) : Bool :=
  t.sampled pid || decide (Sampled t.state.group i.now i.yielded pid)

/-- One cycle; a multiplication uses up the samples. -/
def cycle (ncpu : ℤ) (limit : ℚ) (t : Sampler) (i : CycleInput) : Option Sampler :=
  (t.state.limitCycle ncpu limit i).map fun s =>
    ⟨s, fun pid => if t.state.SetsFromLimit i then t.sampledBy i pid else false⟩

/-- A multiplication counts a process that was sampled since the one before it. -/
def AppliedOnce (t : Sampler) (i : CycleInput) : Prop :=
  ¬ t.state.SetsFromLimit i → ∃ pid ∈ counted (t.state.updated i), t.sampledBy i pid = true

instance (t : Sampler) (i : CycleInput) : Decidable (t.AppliedOnce i) :=
  inferInstanceAs (Decidable (_ → ∃ pid ∈ _, _))

/-- The update of the cycle is long enough to sample, or no scanned process has an
estimate from before. -/
def SamplesOrStarts (t : Sampler) (i : CycleInput) : Prop :=
  minDt ≤ timediffInMs i.now t.state.group.lastUpdate ∨
    ∀ tmp ∈ i.yielded, ∀ p ∈ t.state.group.lookup tmp.pid, p.cpuUsage < 0

instance (t : Sampler) (i : CycleInput) : Decidable (t.SamplesOrStarts i) :=
  inferInstanceAs (Decidable (_ ∨ _))

/-- A sampled process that has not been multiplied with has no estimate. -/
structure Inv (t : Sampler) : Prop where
  sound : TableSound t.state.group
  unused : ∀ pid p, t.sampled pid = true → t.state.group.lookup pid = some p → p.cpuUsage < 0

variable {t : Sampler} {i : CycleInput}

/-- In a cycle whose update samples nothing, the counted processes had their
estimates before. -/
theorem mem_counted_of_short (h : TableSound t.state.group) (hv : ValidScan i.yielded)
    (hdt : timediffInMs i.now t.state.group.lastUpdate < minDt) (pid : Pid) :
    pid ∈ counted (t.state.updated i) ↔ ∃ tmp ∈ i.yielded, tmp.pid = pid ∧
      ∃ p, t.state.group.lookup pid = some p ∧ 0 ≤ p.cpuUsage := by
  rw [LimitState.updated, mem_counted_update_iff h i.now hv]
  refine exists_congr fun tmp => and_congr_right fun _ => and_congr_right fun _ => ?_
  cases t.state.group.lookup pid with
  | none =>
    have hnew : ¬ 0 ≤ (newcomer tmp).cpuUsage := by norm_num [newcomer]
    simp [observe, hnew]
  | some p => simp [observe, hdt]

/-- In a cycle whose update is long enough, every counted process is sampled. -/
theorem sampled_of_counted (h : TableSound t.state.group) (hv : ValidScan i.yielded)
    (hdt : minDt ≤ timediffInMs i.now t.state.group.lastUpdate) {pid : Pid}
    (hcounted : pid ∈ counted (t.state.updated i)) :
    Sampled t.state.group i.now i.yielded pid := by
  obtain ⟨tmp, htmp, hpid, p, hp, husage⟩ := (mem_counted_update_iff h i.now hv pid).mp hcounted
  have hseen := hv.find?_eq_some_iff.mpr ⟨htmp, hpid⟩
  refine ⟨hdt, by rw [hseen]; rfl, ?_⟩
  cases hl : t.state.group.lookup pid with
  | none =>
    rw [hl] at hp
    cases hp
    norm_num [newcomer] at husage
  | some p => rfl

/-- One cycle: no usage is applied again exactly if the update samples, or there
is no estimate to apply. -/
theorem Inv.appliedOnce_iff (h : t.Inv) (hv : ValidScan i.yielded) :
    t.AppliedOnce i ↔ t.SamplesOrStarts i := by
  by_cases hdt : minDt ≤ timediffInMs i.now t.state.group.lastUpdate
  · refine iff_of_true (fun hmult => ?_) (Or.inl hdt)
    rw [LimitState.setsFromLimit_iff_counted] at hmult
    obtain ⟨pid, hcounted⟩ := List.exists_mem_of_ne_nil _ hmult
    have hsampled := sampled_of_counted h.sound hv hdt hcounted
    exact ⟨pid, hcounted, by simp [sampledBy, hsampled]⟩
  · have hshort := not_le.mp hdt
    have hcounted := mem_counted_of_short h.sound hv hshort
    have hold : ∀ pid, pid ∈ counted (t.state.updated i) → t.sampledBy i pid = false := by
      intro pid hpid
      obtain ⟨-, -, -, p, hp, husage⟩ := (hcounted pid).mp hpid
      have hnow : ¬ Sampled t.state.group i.now i.yielded pid := fun hs => hdt hs.1
      have hbefore : t.sampled pid = false := by
        by_contra hs
        exact absurd husage (not_le.mpr (h.unused pid p (Bool.not_eq_false _ ▸ hs) hp))
      simp [sampledBy, hnow, hbefore]
    have happlied : t.AppliedOnce i ↔ t.state.SetsFromLimit i := by
      refine ⟨fun happ => ?_, fun hset hmult => absurd hset hmult⟩
      by_contra hmult
      obtain ⟨pid, hpid, hs⟩ := happ hmult
      rw [hold pid hpid] at hs
      cases hs
    rw [happlied, LimitState.setsFromLimit_iff_counted, SamplesOrStarts, or_iff_right hdt]
    rw [List.eq_nil_iff_forall_not_mem]
    simp only [hcounted, not_exists, not_and, not_le]
    constructor
    · intro hnone tmp htmp p hp
      exact hnone tmp.pid tmp htmp rfl p hp
    · rintro hnone pid tmp htmp rfl p hp
      exact hnone tmp htmp p hp

/-- The records that a group still has are those of an earlier one. -/
def Within (before g : ProcessGroup) : Prop :=
  TableSound g ∧ ∀ pid p, g.lookup pid = some p → before.lookup pid = some p

theorem Within.dropMember {before g : ProcessGroup} (h : Within before g) (node : ℕ) :
    Within before (g.dropMember node) := by
  refine ⟨h.1.dropMember node, fun pid p hp => h.2 pid p ?_⟩
  rw [lookup_dropMember h.1] at hp
  split_ifs at hp
  exact hp

/-- A cycle that sets the rate from the limit leaves all samples without an estimate. -/
theorem Inv.unused_of_setsFromLimit (h : t.Inv) (hv : ValidScan i.yielded)
    (hset : t.state.SetsFromLimit i) {pid : Pid} {p : Process} (hs : t.sampledBy i pid = true)
    (hp : (t.state.updated i).lookup pid = some p) : p.cpuUsage < 0 := by
  have hnone := List.eq_nil_iff_forall_not_mem.mp
    ((LimitState.setsFromLimit_iff_counted _ _).mp hset) pid
  have hlookup := (update_spec h.sound i.now hv).2.2 pid
  rw [LimitState.updated, hlookup] at hp
  cases hf : i.yielded.find? fun tmp => tmp.pid = pid with
  | some tmp =>
    obtain ⟨htmp, hpid⟩ := hv.find?_eq_some_iff.mp hf
    rw [hf] at hp
    by_contra husage
    exact hnone ((mem_counted_update_iff h.sound i.now hv pid).mpr
      ⟨tmp, htmp, hpid, p, hp, not_lt.mp husage⟩)
  | none =>
    -- the process was not scanned, so its sample is from an earlier cycle
    have hnow : ¬ Sampled t.state.group i.now i.yielded pid := by simp [Sampled, hf]
    have hbefore : t.sampled pid = true := by simpa [sampledBy, hnow] using hs
    rw [hf] at hp
    refine h.unused pid p hbefore ?_
    cases hl : t.state.group.lookup pid with
    | none => rw [hl] at hp; cases hp
    | some q => rw [hl] at hp; exact hp

/-- One cycle keeps the invariant, whatever it does to the rate. -/
theorem Inv.cycle (h : t.Inv) (hv : ValidScan i.yielded) {ncpu : ℤ} {limit : ℚ} {t' : Sampler}
    (ht : t.cycle ncpu limit i = some t') : t'.Inv := by
  obtain ⟨s, hs, rfl⟩ := Option.map_eq_some_iff.mp ht
  have hupdated : Within (t.state.updated i) (t.state.updated i) :=
    ⟨(update_spec h.sound i.now hv).1.table, fun _ _ hp => hp⟩
  have hwithin : Within (t.state.updated i) s.group :=
    LimitState.limitCycle_invariant (fun _ node h => h.dropMember node) hs hupdated
  refine ⟨hwithin.1, fun pid p hsampled hp => ?_⟩
  dsimp only at hsampled
  split_ifs at hsampled with hset
  exact h.unused_of_setsFromLimit hv hset hsampled (hwithin.2 pid p hp)

theorem inv_enter (target : Pid) (includeChildren : Bool) (start built : Timespec)
    {initial : List Process} (hinit : ValidScan initial) (timeSlot : ℚ) :
    (enter target includeChildren start built initial timeSlot).Inv where
  sound := tableSound_initProcessGroup target includeChildren start built hinit
  unused _ _ hsampled _ := by simp [enter] at hsampled

end Sampler

/-- Along every run of cycles, with any readings of the clock, each multiplication
counts a process that was sampled since the one before it, if and only if each
update is long enough to sample or finds no estimate. -/
theorem appliedOnce_iff_samplesOrStarts (target : Pid) (includeChildren : Bool)
    (start built : Timespec) {initial : List Process} (hinit : ValidScan initial) (timeSlot : ℚ)
    (ncpu : ℤ) (limit : ℚ) {cycles : List CycleInput}
    (hrun : Runs.AlongPartial (Sampler.cycle ncpu limit) (fun _ i _ => ValidScan i.yielded)
      (Sampler.enter target includeChildren start built initial timeSlot) cycles) :
    Runs.AlongPartial (Sampler.cycle ncpu limit) (fun t i _ => t.AppliedOnce i)
        (Sampler.enter target includeChildren start built initial timeSlot) cycles ↔
      Runs.AlongPartial (Sampler.cycle ncpu limit) (fun t i _ => t.SamplesOrStarts i)
        (Sampler.enter target includeChildren start built initial timeSlot) cycles :=
  Runs.alongPartial_congr_of_invariant (fun _ _ _ h ht hv => h.cycle hv ht)
    (fun _ _ _ h _ hv => h.appliedOnce_iff hv)
    (Sampler.inv_enter target includeChildren start built hinit timeSlot) hrun

/-- A process that uses one CPU, at a reading of the clock in milliseconds. -/
def busyCycle (ms : ℤ) (cputime : ℚ) : CycleInput :=
  ⟨⟨0, ms * 1000000⟩, [⟨5, 1, cputime, 0, ['b']⟩], none, fun _ => false, fun _ => false⟩

/-- A start with that process. -/
def busyStart : Sampler := Sampler.enter 5 false ⟨0, 0⟩ ⟨0, 0⟩ [⟨5, 1, 0, 0, ['b']⟩] timeSlotBase

theorem appliedOnce_iff_samplesOrStarts_busy :
    Runs.AlongPartial (Sampler.cycle 1 (1 / 2)) (fun t i _ => t.AppliedOnce i) busyStart
      [busyCycle 1 1, busyCycle 101 101, busyCycle 201 201] :=
  (appliedOnce_iff_samplesOrStarts 5 false ⟨0, 0⟩ ⟨0, 0⟩ (by decide) timeSlotBase 1 (1 / 2)
    (by decide +kernel)).mpr (by decide +kernel)

/-- When the clock is set back, the usage from before is applied in every cycle. -/
theorem not_appliedOnce_steppedBack :
    ¬ Runs.AlongPartial (Sampler.cycle 1 (1 / 2)) (fun t i _ => t.AppliedOnce i) busyStart
      [busyCycle 1 1, busyCycle 101 101, busyCycle 51 201] ∧
    (Runs.runPartial (Sampler.cycle 1 (1 / 2)) busyStart
      [busyCycle 1 1, busyCycle 101 101, busyCycle 51 201, busyCycle 100 301]).map
        (fun t => t.state.duty.workingrate) = some (1 / 16) := by
  decide +kernel

end CpuLimit
