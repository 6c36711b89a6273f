import CpuLimit.Controller
import CpuLimit.ProcessGroup
import CpuLimit.Library.Sweep

/-!
# Cycles of limit_process

`limit_process` as a sequence of whole cycles: the group update, the exit of an
empty group, the computations of the controller, and the two signal passes. The
clock, the scans, the load and the outcomes of `kill` are inputs of a cycle.
The number of cycles before `quit_flag` is seen is the length of a run.
-/
namespace CpuLimit

open Library

namespace ProcessGroup

/-- The usages that the summing loop reads, in list order. -/
def usages (g : ProcessGroup) : List ℚ := g.proclist.map fun id => (g.records.cell id).cpuUsage

/-- A signal pass over the `left` nodes from position `node` on. The node after
a removed one moves to its position. -/
def signalPass (fails : Pid → Bool) : ℕ → ℕ → ProcessGroup → ProcessGroup
  | 0, _, g => g
  | left + 1, node, g =>
    match g.proclist[node]? with
    | none => g
    | some id =>
      if fails (g.records.pidOf id) then signalPass fails left node (g.dropMember node)
      else signalPass fails left (node + 1) g

end ProcessGroup

/-- What the environment decides in one cycle. -/
structure CycleInput where
  now : Timespec
  yielded : List Process
  load : Option ℚ
  contFails : Pid → Bool
  stopFails : Pid → Bool

/-- The variables that `limit_process` carries from one cycle to the next. -/
structure LimitState where
  group : ProcessGroup
  duty : Duty

namespace LimitState

/-- The state before the loop, after a scan that began at `start` and was
stamped at `built`. -/
def enter (target : Pid) (includeChildren : Bool) (start built : Timespec)
    (initial : List Process) (timeSlot : ℚ) : LimitState :=
  ⟨ProcessGroup.initProcessGroup target includeChildren start built initial, Duty.start timeSlot⟩

/-- The group after the update at the top of the cycle. -/
def updated (s : LimitState) (i : CycleInput) : ProcessGroup := s.group.update i.now i.yielded

/-- One cycle; `none` is the exit with no more processes. -/
def limitCycle (ncpu : ℤ) (limit : ℚ) (s : LimitState) (i : CycleInput) : Option LimitState :=
  let g := s.updated i
  if g.proclist.length = 0 then none
  else
    let duty := s.duty.cycle ncpu limit g.usages i.load
    let g := ProcessGroup.signalPass i.contFails g.proclist.length 0 g
    let g :=
      if 0 < duty.tsleep.tvNsec ∨ 0 < duty.tsleep.tvSec then
        ProcessGroup.signalPass i.stopFails g.proclist.length 0 g
      else g
    some ⟨g, duty⟩

/-- The cycle replaces the working rate by the limit, instead of multiplying the
rate that it finds. -/
def SetsFromLimit (s : LimitState) (i : CycleInput) : Prop := sumUsage (s.updated i).usages < 0

instance (s : LimitState) (i : CycleInput) : Decidable (s.SetsFromLimit i) :=
  inferInstanceAs (Decidable (_ < _))

end LimitState

/-! ## Usages after an update -/

namespace ProcessGroup

variable {g : ProcessGroup}

/-- In a coherent group the loop reads the records that the table returns. -/
theorem Coherent.map_some_usages (h : Coherent g) :
    g.usages.map some = g.memberPids.map fun pid => (g.lookup pid).map Process.cpuUsage := by
  simp only [usages, memberPids, List.map_map]
  refine List.map_congr_left fun id hid => ?_
  simp [lookup, h.found id hid]

/-- Each member's usage is what the update makes of its record and its descriptor. -/
theorem map_some_usages_update (h : TableSound g) (now : Timespec) {yielded : List Process}
    (hv : ValidScan yielded) :
    (g.update now yielded).usages.map some = yielded.map fun tmp =>
      (observe (timediffInMs now g.lastUpdate) (g.lookup tmp.pid) (some tmp)).map
        Process.cpuUsage := by
  obtain ⟨hc, hm, hl⟩ := update_spec h now hv
  rw [hc.map_some_usages, hm, List.map_map]
  refine List.map_congr_left fun tmp htmp => ?_
  simp [hl, (hv.find?_eq_some_iff).mpr ⟨htmp, rfl⟩]

theorem mem_usages_update_iff (h : TableSound g) (now : Timespec) {yielded : List Process}
    (hv : ValidScan yielded) (u : ℚ) :
    u ∈ (g.update now yielded).usages ↔ ∃ tmp ∈ yielded,
      (observe (timediffInMs now g.lastUpdate) (g.lookup tmp.pid) (some tmp)).map
        Process.cpuUsage = some u := by
  have hmem : u ∈ (g.update now yielded).usages ↔
      some u ∈ (g.update now yielded).usages.map some := by simp
  rw [hmem, map_some_usages_update h now hv, List.mem_map]

theorem length_proclist_update (h : TableSound g) (now : Timespec) {yielded : List Process}
    (hv : ValidScan yielded) : (g.update now yielded).proclist.length = yielded.length := by
  have hm := congrArg List.length (update_spec h now hv).2.1
  simpa [memberPids] using hm

end ProcessGroup

/-! ## Signal passes -/

namespace ProcessGroup

/-- What the removal of a member keeps, a signal pass keeps. -/
theorem signalPass_invariant {inv : ProcessGroup → Prop}
    (hdrop : ∀ g node, inv g → inv (g.dropMember node)) (fails : Pid → Bool) (left node : ℕ)
    {g : ProcessGroup} (h : inv g) : inv (signalPass fails left node g) := by
  induction left generalizing node g with
  | zero => exact h
  | succ left ih =>
    rw [signalPass]
    cases g.proclist[node]? with
    | none => exact h
    | some id =>
      dsimp only
      split_ifs
      · exact ih node (hdrop g node h)
      · exact ih (node + 1) h

/-- A pass in which every signal is delivered changes nothing. -/
theorem signalPass_of_delivered {fails : Pid → Bool} {g : ProcessGroup}
    (h : ∀ pid ∈ g.memberPids, fails pid = false) (left node : ℕ) :
    signalPass fails left node g = g := by
  induction left generalizing node with
  | zero => rfl
  | succ left ih =>
    cases hid : g.proclist[node]? with
    | none => simp [signalPass, hid]
    | some id =>
      have hpid : fails (g.records.pidOf id) = false :=
        h _ (List.mem_map_of_mem (List.mem_of_getElem? hid))
      simp [signalPass, hid, hpid, ih]

/-- A signal pass is a sweep over the members. -/
theorem memberPids_signalPass (fails : Pid → Bool) (left node : ℕ) (g : ProcessGroup) :
    (signalPass fails left node g).memberPids =
      Sweep.sweep (fun pid => !fails pid) left node g.memberPids := by
  induction left generalizing node g with
  | zero => rfl
  | succ left ih =>
    have hnode := g.getElem?_memberPids node
    cases hid : g.proclist[node]? with
    | none => simp [signalPass, Sweep.sweep, hid, hnode]
    | some id =>
      rw [hid] at hnode
      rw [signalPass, hid, Sweep.sweep, hnode]
      dsimp only [Option.map_some]
      by_cases hf : fails (g.records.pidOf id) = true
      · rw [if_pos hf, ih, memberPids_dropMember, if_neg (by simp [hf])]
      · rw [if_neg hf, ih, if_pos (by simp [hf])]

/-- After a pass the members are those that could be signalled, in their order. -/
theorem memberPids_wholePass (fails : Pid → Bool) (g : ProcessGroup) :
    (signalPass fails g.proclist.length 0 g).memberPids =
      g.memberPids.filter fun pid => !fails pid := by
  rw [memberPids_signalPass, Sweep.sweep_eq _ (by simp [memberPids])]
  simp

/-- Induction along a pass to the end of the list: it is over, or the next member gets
its signal, or that fails and the member is dropped. -/
theorem signalPass_induction {fails : Pid → Bool} {motive : ℕ → ProcessGroup → ProcessGroup → Prop}
    (hend : ∀ node g, g.memberPids.drop node = [] → motive node g g)
    (hsent : ∀ node g t id, g.proclist[node]? = some id → fails (g.records.pidOf id) = false →
      motive (node + 1) g t → motive node g t)
    (hfails : ∀ node g t id, g.proclist[node]? = some id → fails (g.records.pidOf id) = true →
      motive node (g.dropMember node) t → motive node g t)
    {left node : ℕ} {g : ProcessGroup} (hleft : g.proclist.length ≤ node + left) :
    motive node g (signalPass fails left node g) := by
  induction left generalizing node g with
  | zero => exact hend node g (List.drop_eq_nil_of_le (by simpa [memberPids] using hleft))
  | succ left ih =>
    have hnode := g.getElem?_memberPids node
    rw [signalPass]
    cases hid : g.proclist[node]? with
    | none =>
      rw [hid] at hnode
      exact hend node g (List.drop_eq_nil_of_le (List.getElem?_eq_none_iff.mp hnode))
    | some id =>
      rw [hid] at hnode
      dsimp only
      by_cases hf : fails (g.records.pidOf id) = true
      · have hpids := congrArg List.length (memberPids_dropMember g node)
        have herase := Sweep.length_eraseIdx hnode
        simp only [memberPids, List.length_map] at hpids herase
        rw [if_pos hf]
        exact hfails node g _ id hid hf (ih (by omega))
      · rw [if_neg hf]
        exact hsent node g _ id hid (Bool.not_eq_true _ ▸ hf) (ih (by omega))

/-- A pass takes the records of the members that could not be signalled out of the
table, and no others. -/
theorem lookup_signalPass {fails : Pid → Bool} {g : ProcessGroup} (h : TableSound g) {left node : ℕ}
    (hleft : g.proclist.length ≤ node + left) (pid : Pid) :
    (signalPass fails left node g).lookup pid =
      if pid ∈ g.memberPids.drop node ∧ fails pid = true then none else g.lookup pid := by
  refine signalPass_induction (motive := fun node g t => TableSound g → t.lookup pid =
      if pid ∈ g.memberPids.drop node ∧ fails pid = true then none else g.lookup pid)
    (fun node g hnil _ => ?_) (fun node g t id hid hf ih h => ?_)
    (fun node g t id hid hf ih h => ?_) hleft h
  · simp [hnil]
  · have hnode := getElem?_memberPids_of_some hid
    rw [ih h, Sweep.drop_eq_cons hnode]
    by_cases hpid : pid = g.records.pidOf id
    · simp [hpid, hf]
    · simp [hpid]
  · have hnode := getElem?_memberPids_of_some hid
    rw [ih (h.dropMember node), memberPids_dropMember, Sweep.drop_eraseIdx hnode,
      Sweep.drop_eq_cons hnode, lookup_dropMember h, hnode]
    by_cases hpid : pid = g.records.pidOf id
    · simp [hpid, hf]
    · simp [hpid, Ne.symm hpid]

/-- A whole pass. -/
theorem lookup_wholePass {g : ProcessGroup} (h : TableSound g) (fails : Pid → Bool) (pid : Pid) :
    (signalPass fails g.proclist.length 0 g).lookup pid =
      if pid ∈ g.memberPids ∧ fails pid = true then none else g.lookup pid := by
  rw [lookup_signalPass h (by omega)]
  rfl

end ProcessGroup

/-! ## One cycle -/

namespace LimitState

/-- The cycle stops the members for a slice of time. -/
def Sleeps (ncpu : ℤ) (limit : ℚ) (s : LimitState) (i : CycleInput) : Prop :=
  let duty := s.duty.cycle ncpu limit (s.updated i).usages i.load
  0 < duty.tsleep.tvNsec ∨ 0 < duty.tsleep.tvSec

instance (ncpu : ℤ) (limit : ℚ) (s : LimitState) (i : CycleInput) :
    Decidable (Sleeps ncpu limit s i) := inferInstanceAs (Decidable (_ ∨ _))

/-- The group after a cycle that does not exit. -/
theorem limitCycle_group {ncpu : ℤ} {limit : ℚ} {s t : LimitState} {i : CycleInput}
    (h : s.limitCycle ncpu limit i = some t) :
    let g := ProcessGroup.signalPass i.contFails (s.updated i).proclist.length 0 (s.updated i)
    t.group = if Sleeps ncpu limit s i then
      ProcessGroup.signalPass i.stopFails g.proclist.length 0 g else g := by
  unfold limitCycle at h
  dsimp only at h
  split at h
  · cases h
  · cases h; rfl

/-- What the update brings about and no removal undoes holds after the cycle. -/
theorem limitCycle_invariant {inv : ProcessGroup → Prop}
    (hdrop : ∀ g node, inv g → inv (g.dropMember node)) {ncpu : ℤ} {limit : ℚ}
    {s t : LimitState} {i : CycleInput} (h : s.limitCycle ncpu limit i = some t)
    (hupdated : inv (s.updated i)) : inv t.group := by
  have hcont := ProcessGroup.signalPass_invariant hdrop i.contFails
    (s.updated i).proclist.length 0 hupdated
  rw [limitCycle_group h]
  split_ifs
  · exact ProcessGroup.signalPass_invariant hdrop i.stopFails _ 0 hcont
  · exact hcont

/-- What a cycle that does not exit leaves of the controller. -/
theorem limitCycle_duty {ncpu : ℤ} {limit : ℚ} {s t : LimitState} {i : CycleInput}
    (h : s.limitCycle ncpu limit i = some t) :
    t.duty = s.duty.cycle ncpu limit (s.updated i).usages i.load := by
  unfold limitCycle at h
  dsimp only at h
  split at h
  · cases h
  · cases h; rfl

/-- The cycle multiplies the rate while that is still the initial -1. -/
def UsesPlaceholder (s : LimitState) (i : CycleInput) : Prop :=
  ¬ s.SetsFromLimit i ∧ s.duty.workingrate = -1

/-- No cycle after one that did not exit finds the placeholder. -/
theorem not_usesPlaceholder_of_cycle {ncpu : ℤ} {limit : ℚ} {s t u : LimitState} {i : CycleInput}
    (h : s.limitCycle ncpu limit i = some t)
    (hu : Runs.Reaches (limitCycle ncpu limit) t u) (j : CycleInput) : ¬ u.UsesPlaceholder j := by
  have hclamped : ∀ s i t, limitCycle ncpu limit s i = some t → epsilon ≤ t.duty.workingrate := by
    intro s i t hst
    rw [limitCycle_duty hst]
    exact (clampRate_mem _).1
  have hrate : epsilon ≤ u.duty.workingrate :=
    hu.invariant (fun s i t _ hst => hclamped s i t hst) (hclamped _ _ _ h)
  intro hj
  have heps := epsilon_pos
  linarith [hj.2]

end LimitState

theorem adjustRate_of_neg (limit workingrate : ℚ) {pcpu : ℚ} (h : pcpu < 0) :
    adjustRate limit pcpu workingrate = limit := by
  rw [adjustRate, if_pos h]

/-- Adjusting the placeholder leaves the smallest rate. -/
theorem clampRate_adjust_placeholder {limit pcpu : ℚ} (hlimit : 0 ≤ limit) (hpcpu : ¬ pcpu < 0) :
    clampRate (adjustRate limit pcpu (-1)) = epsilon := by
  have hnonpos : adjustRate limit pcpu (-1) ≤ 0 := by
    rw [adjustRate, if_neg hpcpu]
    exact div_nonpos_of_nonpos_of_nonneg (by linarith) (divisor_pos pcpu).le
  rw [clampRate_eq]
  exact max_eq_right ((min_le_left _ _).trans (hnonpos.trans epsilon_pos.le))

theorem epsilon_lt_clampRate {limit : ℚ} (hlimit : epsilon < limit) :
    epsilon < clampRate limit := by
  rw [clampRate_eq]
  exact lt_max_of_lt_left (lt_min hlimit epsilon_lt_one_sub)

/-! ## The first cycle -/

/-- The clock reading that `init_process_group` leaves in `last_update`. -/
def initialUpdateTime (start built : Timespec) : Timespec :=
  if timediffInMs built start < minDt then start else built

/-- The first cycle takes no usable sample: it follows the timestamp of the
initial update too closely, or every process that it sees again has lost CPU
time, as after the reuse of its `pid`. -/
def Unsampled (start built now : Timespec) (initial yielded : List Process) : Prop :=
  timediffInMs now (initialUpdateTime start built) < minDt ∨
    ∀ tmp ∈ yielded, ∀ p ∈ initial, p.pid = tmp.pid → tmp.cputime < p.cputime

instance (start built now : Timespec) (initial yielded : List Process) :
    Decidable (Unsampled start built now initial yielded) :=
  inferInstanceAs (Decidable (_ ∨ _))

namespace ProcessGroup

variable (target : Pid) (includeChildren : Bool) (start built : Timespec) {initial : List Process}

theorem lastUpdate_initProcessGroup :
    (initProcessGroup target includeChildren start built initial).lastUpdate =
      initialUpdateTime start built := by
  rw [initProcessGroup, update_lastUpdate]
  rfl

theorem lookup_fresh (pid : Pid) : (fresh target includeChildren start).lookup pid = none := by
  have hsound := tableSound_fresh target includeChildren start
  rw [lookup, Option.map_eq_none_iff, Option.eq_none_iff_forall_ne_some]
  intro id hid
  have hstored := ((hsound.findPid_eq_some_iff _ _).mp hid).1
  simp [ChainedTable.Stored, fresh, processTableInit] at hstored

/-- The initial update makes newcomers of all that it scans. -/
theorem lookup_initProcessGroup (hv : ValidScan initial) (pid : Pid) :
    (initProcessGroup target includeChildren start built initial).lookup pid =
      (initial.find? fun tmp => tmp.pid = pid).map newcomer := by
  have hsound := tableSound_fresh target includeChildren start
  rw [initProcessGroup, (update_spec hsound built hv).2.2, lookup_fresh]
  cases initial.find? fun tmp => tmp.pid = pid <;> rfl

theorem tableSound_initProcessGroup (hv : ValidScan initial) :
    TableSound (initProcessGroup target includeChildren start built initial) :=
  (update_spec (tableSound_fresh target includeChildren start) built hv).1.table

end ProcessGroup

section FirstCycle

variable (target : Pid) (includeChildren : Bool) (start built : Timespec) (timeSlot : ℚ)
  {initial : List Process}

/-- A first usage is an estimate exactly if the record was refreshed over a long
interval without losing CPU time. -/
theorem firstUsage_neg_iff {dt : ℚ} {p tmp : Process} (hnew : p.cpuUsage = -1) :
    (if dt < minDt then p else refresh dt tmp p).cpuUsage < 0 ↔
      dt < minDt ∨ tmp.cputime < p.cputime := by
  by_cases hdt : dt < minDt
  · simp [hdt, hnew]
  · have hpos : 0 < dt := lt_of_lt_of_le (by norm_num [minDt]) (not_lt.mp hdt)
    have hneg : p.cpuUsage < 0 := by rw [hnew]; norm_num
    have hone : ¬ (1 : ℚ) < 0 := by norm_num
    simp only [hdt, if_false, false_or, refresh, if_pos hneg, cMin_eq_min, min_lt_iff, hone,
      or_false]
    rw [div_lt_iff₀ hpos, zero_mul, sub_neg]

/-- The first update leaves every usage negative exactly if it is `Unsampled`. -/
theorem setsFromLimit_enter_iff (hinit : ProcessGroup.ValidScan initial) {i : CycleInput}
    (hscan : ProcessGroup.ValidScan i.yielded) :
    (LimitState.enter target includeChildren start built initial timeSlot).SetsFromLimit i ↔
      Unsampled start built i.now initial i.yielded := by
  have hsound := ProcessGroup.tableSound_initProcessGroup target includeChildren start built hinit
  have hmem := ProcessGroup.mem_usages_update_iff hsound i.now hscan
  rw [ProcessGroup.lastUpdate_initProcessGroup] at hmem
  simp only [ProcessGroup.lookup_initProcessGroup target includeChildren start built hinit] at hmem
  rw [LimitState.SetsFromLimit, sumUsage_neg_iff]
  simp only [LimitState.updated, LimitState.enter, hmem]
  constructor
  · intro h
    by_contra hcond
    rw [Unsampled, not_or] at hcond
    obtain ⟨hlong, hlost⟩ := hcond
    push Not at hlost
    obtain ⟨tmp, htmp, p, hp, hpid, hle⟩ := hlost
    have hfind := hinit.find?_eq_some_iff.mpr ⟨hp, hpid⟩
    have hu := h _ ⟨tmp, htmp, by rw [hfind]; rfl⟩
    rw [firstUsage_neg_iff (p := newcomer p) rfl] at hu
    rcases hu with hu | hu
    · exact hlong hu
    · exact absurd hu (not_lt.mpr hle)
  · intro h u ⟨tmp, htmp, hu⟩
    cases hf : initial.find? fun x => x.pid = tmp.pid with
    | none =>
      simp only [hf, Option.map_none, ProcessGroup.observe, Option.map_some,
        Option.some.injEq] at hu
      rw [← hu]
      norm_num [newcomer]
    | some p =>
      obtain ⟨hp, hpid⟩ := hinit.find?_eq_some_iff.mp hf
      simp only [hf, Option.map_some, ProcessGroup.observe, Option.some.injEq] at hu
      rw [← hu, firstUsage_neg_iff (p := newcomer p) rfl]
      exact h.imp_right fun hlost => hlost tmp htmp p hp hpid

/-- The first cycle that does not exit starts from the limit, and no cycle uses
the placeholder, exactly if that cycle is `Unsampled`. For a limit above
`EPSILON` the rate itself tells the difference. -/
theorem startsFromLimit_iff_unsampled (ncpu : ℤ) {limit : ℚ} (hlimit : 0 ≤ limit)
    (hinit : ProcessGroup.ValidScan initial) {i : CycleInput}
    (hscan : ProcessGroup.ValidScan i.yielded) {s : LimitState}
    (hs : (LimitState.enter target includeChildren start built initial timeSlot).limitCycle
      ncpu limit i = some s) :
    ((s.duty.workingrate = clampRate limit ∧
      ¬ (LimitState.enter target includeChildren start built initial timeSlot).UsesPlaceholder i ∧
      ∀ t j, Runs.Reaches (LimitState.limitCycle ncpu limit) s t → ¬ t.UsesPlaceholder j) ↔
        Unsampled start built i.now initial i.yielded) ∧
    (epsilon < limit → (s.duty.workingrate = clampRate limit ↔
      Unsampled start built i.now initial i.yielded)) := by
  have hbranch := setsFromLimit_enter_iff target includeChildren start built timeSlot hinit hscan
  have hrate : s.duty.workingrate = clampRate (adjustRate limit
      (sumUsage ((LimitState.enter target includeChildren start built initial
        timeSlot).updated i).usages) (-1)) := by
    rw [LimitState.limitCycle_duty hs]
    rfl
  have hlater := fun t j ht => LimitState.not_usesPlaceholder_of_cycle hs (u := t) ht j
  by_cases hset : (LimitState.enter target includeChildren start built initial
      timeSlot).SetsFromLimit i
  · have heq : s.duty.workingrate = clampRate limit := by
      rw [hrate, adjustRate_of_neg _ _ hset]
    have hun := hbranch.mp hset
    exact ⟨⟨fun _ => hun, fun _ => ⟨heq, fun hp => hp.1 hset, hlater⟩⟩,
      fun _ => ⟨fun _ => hun, fun _ => heq⟩⟩
  · have hun := fun h => hset (hbranch.mpr h)
    have heq : s.duty.workingrate = epsilon := by
      rw [hrate, clampRate_adjust_placeholder hlimit hset]
    refine ⟨⟨fun h => absurd ⟨hset, rfl⟩ h.2.1, fun h => absurd h hun⟩, fun hlt => ?_⟩
    exact ⟨fun h => absurd (heq.symm.trans h) (epsilon_lt_clampRate hlt).ne, fun h => absurd h hun⟩

/-- A process that the initial scan and the first cycle both see, idle in between. -/
def idleProcess : Process := ⟨5, 1, 0, 0, ['i']⟩

/-- The run with limit 1/2 on one CPU whose first cycle reads the clock `ms`
milliseconds after `init_process_group` did. -/
def idleFirstCycle (ms : ℤ) : Option LimitState :=
  (LimitState.enter 5 false ⟨0, 0⟩ ⟨0, 0⟩ [idleProcess] timeSlotBase).limitCycle 1 (1 / 2)
    ⟨⟨0, ms * 1000000⟩, [idleProcess], none, fun _ => false, fun _ => false⟩

/-- A first cycle that follows within a millisecond starts from the limit. -/
theorem startsFromLimit_iff_unsampled_idleProcess :
    (idleFirstCycle 1).map (fun s => s.duty.workingrate) = some (clampRate (1 / 2)) := by
  cases hs : idleFirstCycle 1 with
  | none => exact absurd (congrArg Option.isSome hs) (by decide +kernel)
  | some s =>
    have h := startsFromLimit_iff_unsampled 5 false ⟨0, 0⟩ ⟨0, 0⟩ timeSlotBase 1
      (by norm_num) (by decide) (by decide) hs
    exact congrArg some (h.1.mpr (by decide +kernel)).1

/-- One that follows after 20 milliseconds starts from the smallest rate. -/
theorem idleFirstCycle_not_from_limit :
    (idleFirstCycle 20).map (fun s => s.duty.workingrate) = some epsilon ∧
      epsilon ≠ clampRate (1 / 2) := by
  decide +kernel

end FirstCycle

end CpuLimit
