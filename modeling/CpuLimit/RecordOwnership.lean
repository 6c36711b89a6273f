import CpuLimit.LimitProcess

/-!
# Who frees the records

`process_dup` allocates the records of a group. The table owns them: its destructor
frees the data of its nodes, while the member list only frees the nodes. A record
that a failed signal takes out of the table has no owner any more.
-/
namespace CpuLimit

open Library

/-! ## Freeing -/

namespace Records

/-- `free` of a record; freeing what is not allocated is undefined. -/
def free (rs : Records) (id : RecordId) : Option Records :=
  if id ∈ rs.live then some { rs with live := rs.live.erase id } else none

/-- `destroy_list`, on the records of its nodes. -/
def destroyList (rs : Records) : List RecordId → Option Records
  | [] => some rs
  | id :: l => (rs.free id).bind fun rs => destroyList rs l

theorem destroyList_append (rs : Records) (l l' : List RecordId) :
    rs.destroyList (l ++ l') = (rs.destroyList l).bind fun rs => rs.destroyList l' := by
  induction l generalizing rs with
  | nil => rfl
  | cons id l ih =>
    rw [List.cons_append, destroyList, destroyList, Option.bind_assoc]
    congr 1
    funext rs
    exact ih rs

/-- A list of distinct allocated records is freed without a fault, and nothing else is. -/
theorem destroyList_spec {rs : Records} {l : List RecordId} (hnd : l.Nodup)
    (hlive : ∀ id ∈ l, id ∈ rs.live) :
    ∃ rs', rs.destroyList l = some rs' ∧ ∀ id, id ∈ rs'.live ↔ id ∈ rs.live ∧ id ∉ l := by
  induction l generalizing rs with
  | nil => exact ⟨rs, rfl, by simp⟩
  | cons id l ih =>
    obtain ⟨hid, hnd⟩ := List.nodup_cons.mp hnd
    have hfree : rs.free id = some { rs with live := rs.live.erase id } :=
      if_pos (hlive id (by simp))
    have hrest : ∀ id' ∈ l, id' ∈ ({ rs with live := rs.live.erase id } : Records).live := by
      intro id' hid'
      refine Finset.mem_erase.mpr ⟨?_, hlive id' (by simp [hid'])⟩
      rintro rfl
      exact hid hid'
    obtain ⟨rs', hrs', hmem⟩ := ih hnd hrest
    refine ⟨rs', by rw [destroyList, hfree]; exact hrs', fun id' => ?_⟩
    rw [hmem, Finset.mem_erase, List.mem_cons]
    tauto

end Records

/-- `process_table_destroy`: the lists of the allocated buckets, in order. -/
def processTableDestroy (pt : ProcessTable) (rs : Records) : Option Records :=
  ((List.range pt.hashsize.toNat).map Int.ofNat).foldlM
    (fun rs i => rs.destroyList (ChainedTable.bucket pt.table i)) rs

namespace ProcessGroup

/-- `close_process_group`: the heap after the member list, whose destruction frees no
record, and the table are gone. -/
def closeProcessGroup (g : ProcessGroup) : Option Records :=
  processTableDestroy g.proctable g.records

theorem closeProcessGroup_eq (g : ProcessGroup) :
    g.closeProcessGroup = g.records.destroyList g.tableRecords := by
  have hfold : ∀ (indices : List ℤ) (rs : Records),
      indices.foldlM (fun rs i => rs.destroyList (ChainedTable.bucket g.proctable.table i)) rs =
        rs.destroyList (indices.flatMap (ChainedTable.bucket g.proctable.table)) := by
    intro indices
    induction indices with
    | nil => exact fun _ => rfl
    | cons i indices ih =>
      intro rs
      rw [List.foldlM_cons, List.flatMap_cons, Records.destroyList_append]
      exact congrArg _ (funext ih)
  exact hfold _ _

/-- The table owns the allocated records: they are those that it holds, the members
are among them, and closing the group frees each of them once. -/
structure Owned (g : ProcessGroup) : Prop where
  live_iff : ∀ id, id ∈ g.records.live ↔ id ∈ g.tableRecords
  members_live : ∀ id ∈ g.proclist, id ∈ g.records.live
  closes : ∃ rs, g.closeProcessGroup = some rs ∧ rs.live = ∅

/-- What holds even when records have been lost: nothing that was freed is a member
or is freed again. -/
structure NeverFreed (g : ProcessGroup) : Prop where
  members_live : ∀ id ∈ g.proclist, id ∈ g.records.live
  closes : g.closeProcessGroup.isSome

/-! ## Invariants -/

/-- The records in the table are allocated. -/
def StoredLive (g : ProcessGroup) : Prop :=
  ∀ id, ChainedTable.Stored g.proctable.table id → id ∈ g.records.live

/-- The allocated records are in the table. -/
def LiveStored (g : ProcessGroup) : Prop :=
  ∀ id ∈ g.records.live, ChainedTable.Stored g.proctable.table id

variable {g : ProcessGroup}

theorem nodup_tableRecords (h : TableSound g) : g.tableRecords.Nodup :=
  List.Nodup.of_map _ (nodup_tablePids h)

/-- Members are in the table. -/
theorem Coherent.stored (h : Coherent g) {id : RecordId} (hid : id ∈ g.proclist) :
    ChainedTable.Stored g.proctable.table id :=
  ((h.table.findPid_eq_some_iff _ _).mp (h.found id hid)).1

theorem Coherent.neverFreed (h : Coherent g) (hlive : StoredLive g) : NeverFreed g where
  members_live id hid := hlive id (h.stored hid)
  closes := by
    obtain ⟨rs, hrs, -⟩ := Records.destroyList_spec (nodup_tableRecords h.table)
      fun id hid => hlive id ((mem_tableRecords_iff h.table).mp hid)
    rw [closeProcessGroup_eq, hrs]
    rfl

/-- A coherent group with allocated records is owned if none of them was lost. -/
theorem Coherent.owned_iff (h : Coherent g) (hlive : StoredLive g) :
    Owned g ↔ LiveStored g := by
  constructor
  · intro howned id hid
    exact (mem_tableRecords_iff h.table).mp ((howned.live_iff id).mp hid)
  · intro hstored
    have hiff : ∀ id, id ∈ g.records.live ↔ id ∈ g.tableRecords := by
      intro id
      rw [mem_tableRecords_iff h.table]
      exact ⟨hstored id, hlive id⟩
    refine ⟨hiff, (h.neverFreed hlive).members_live, ?_⟩
    obtain ⟨rs, hrs, hmem⟩ := Records.destroyList_spec (nodup_tableRecords h.table)
      fun id hid => (hiff id).mpr hid
    refine ⟨rs, by rw [closeProcessGroup_eq, hrs], ?_⟩
    ext id
    rw [hmem, hiff]
    simp

/-! ## Updates -/

/-- One turn of the update loop allocates what it adds to the table. -/
theorem updateStep_owned (dt : ℚ) (g : ProcessGroup) (tmp : Process) :
    (StoredLive g → StoredLive (g.updateStep dt tmp)) ∧
      (LiveStored g → LiveStored (g.updateStep dt tmp)) := by
  cases hf : processTableFindPid g.records g.proctable tmp.pid with
  | none =>
    have hlive : ∀ id, id ∈ (g.updateStep dt tmp).records.live ↔
        id = g.records.next ∨ id ∈ g.records.live := by
      intro id
      rw [updateStep_new dt hf]
      exact Finset.mem_insert
    have hstored : ∀ id, ChainedTable.Stored (g.updateStep dt tmp).proctable.table id ↔
        id = g.records.next ∨ ChainedTable.Stored g.proctable.table id := by
      intro id
      rw [updateStep_new dt hf, processTableAdd_table]
      exact ChainedTable.stored_add _ _ _ _
    constructor
    · intro h id hid
      exact (hlive id).mpr (((hstored id).mp hid).imp_right (h id))
    · intro h id hid
      exact (hstored id).mpr (((hlive id).mp hid).imp_right (h id))
  | some p =>
    have hlive : (g.updateStep dt tmp).records.live = g.records.live := by
      rw [updateStep_seen dt hf]
      dsimp only
      split_ifs <;> rfl
    have htable : (g.updateStep dt tmp).proctable = g.proctable := by
      rw [updateStep_seen dt hf]
    rw [StoredLive, StoredLive, LiveStored, LiveStored, hlive, htable]
    exact ⟨id, id⟩

theorem update_owned (now : Timespec) (yielded : List Process) (g : ProcessGroup) :
    (StoredLive g → StoredLive (g.update now yielded)) ∧
      (LiveStored g → LiveStored (g.update now yielded)) := by
  have hfold : ∀ (dt : ℚ) (yielded : List Process) (g : ProcessGroup),
      (StoredLive g → StoredLive (yielded.foldl (updateStep dt) g)) ∧
        (LiveStored g → LiveStored (yielded.foldl (updateStep dt) g)) := by
    intro dt yielded
    induction yielded with
    | nil => exact fun _ => ⟨id, id⟩
    | cons tmp rest ih =>
      intro g
      obtain ⟨hs, hl⟩ := updateStep_owned dt g tmp
      obtain ⟨hs', hl'⟩ := ih (g.updateStep dt tmp)
      exact ⟨hs' ∘ hs, hl' ∘ hl⟩
  obtain ⟨hs, hl⟩ := hfold (timediffInMs now g.lastUpdate) yielded g.clearMembers
  constructor
  · intro h id hid
    rw [update, stamp_proctable] at hid
    rw [update, stamp_records]
    exact hs h id hid
  · intro h id hid
    rw [update, stamp_records] at hid
    rw [update, stamp_proctable]
    exact hl h id hid

/-- An update keeps the two halves of the balance. -/
theorem Coherent.owned_update_iff (h : Coherent g) (hlive : StoredLive g) (now : Timespec)
    {yielded : List Process} (hv : ValidScan yielded) :
    Owned (g.update now yielded) ↔ LiveStored (g.update now yielded) :=
  (update_spec h.table now hv).1.owned_iff ((update_owned now yielded g).1 hlive)

/-! ## Loop heads -/

/-- The loop of `limit_process` ends at its head, when `quit_flag` is set, or after one
more update, when that finds no process. In both cases the table owns the records. -/
structure Balanced (g : ProcessGroup) : Prop where
  owned : Owned g
  afterUpdate : ∀ now yielded, ValidScan yielded → Owned (g.update now yielded)

/-- The same for what cannot go wrong. -/
structure Safe (g : ProcessGroup) : Prop where
  neverFreed : NeverFreed g
  afterUpdate : ∀ now yielded, ValidScan yielded → NeverFreed (g.update now yielded)

/-- What every loop head keeps. -/
structure Held (g : ProcessGroup) : Prop where
  coherent : Coherent g
  live : StoredLive g

theorem Held.update (h : Held g) (now : Timespec) {yielded : List Process}
    (hv : ValidScan yielded) : Held (g.update now yielded) :=
  ⟨(update_spec h.coherent.table now hv).1, (update_owned now yielded g).1 h.live⟩

theorem dropMember_records (g : ProcessGroup) (node : ℕ) :
    (g.dropMember node).records = g.records := by
  unfold dropMember
  split <;> rfl

theorem Held.dropMember (h : Held g) (node : ℕ) : Held (g.dropMember node) := by
  refine ⟨h.coherent.dropMember node, fun id hid => ?_⟩
  rw [dropMember_records]
  refine h.live id ?_
  cases hnode : g.proclist[node]? with
  | none => simpa [ProcessGroup.dropMember, hnode] using hid
  | some p =>
    rw [dropMember_of_getElem hnode] at hid
    change ChainedTable.Stored (processTableDelPid _ g.proctable _).2.table id at hid
    rw [processTableDelPid_table] at hid
    exact ChainedTable.stored_of_del _ hid

theorem Held.safe (h : Held g) : Safe g :=
  ⟨h.coherent.neverFreed h.live, fun now _ hv =>
    (h.update now hv).coherent.neverFreed (h.update now hv).live⟩

theorem Held.balanced_iff (h : Held g) : Balanced g ↔ LiveStored g := by
  constructor
  · exact fun hb => (h.coherent.owned_iff h.live).mp hb.owned
  · intro hstored
    refine ⟨(h.coherent.owned_iff h.live).mpr hstored, fun now yielded hv => ?_⟩
    exact (h.coherent.owned_update_iff h.live now hv).mpr ((update_owned now yielded g).2 hstored)

/-- A member whose record is not found any more has lost it. -/
theorem not_liveStored_of_lookup {before : ProcessGroup} (h : TableSound g)
    (hrecords : g.records = before.records) (hbefore : Held before) {pid : Pid}
    (hmember : pid ∈ before.memberPids) (hlost : g.lookup pid = none) : ¬ LiveStored g := by
  obtain ⟨id, hid, hpid⟩ := List.mem_map.mp hmember
  intro hstored
  have hlive : id ∈ g.records.live := by
    rw [hrecords]
    exact hbefore.live id (hbefore.coherent.stored hid)
  have hfind := (h.findPid_eq_some_iff pid id).mpr ⟨hstored id hlive, by rw [hrecords, hpid]⟩
  simp [lookup, hfind] at hlost

theorem held_fresh (target : Pid) (includeChildren : Bool) (start : Timespec) :
    Held (fresh target includeChildren start) ∧
      LiveStored (fresh target includeChildren start) := by
  refine ⟨⟨.clearMembers (tableSound_fresh target includeChildren start), ?_⟩, ?_⟩
  · intro id hid
    simp [ChainedTable.Stored, fresh, processTableInit] at hid
  · intro id hid
    simp [fresh, Records.empty] at hid

end ProcessGroup

/-! ## Cycles -/

namespace LimitState

open ProcessGroup

variable {ncpu : ℤ} {limit : ℚ} {s t : LimitState} {i : CycleInput}

/-- No `kill` of the cycle fails; SIGSTOP is sent only before a sleeping slice. -/
def Delivered (ncpu : ℤ) (limit : ℚ) (s : LimitState) (i : CycleInput) : Prop :=
  ∀ tmp ∈ i.yielded, i.contFails tmp.pid = false ∧
    (Sleeps ncpu limit s i → i.stopFails tmp.pid = false)

instance (ncpu : ℤ) (limit : ℚ) (s : LimitState) (i : CycleInput) :
    Decidable (Delivered ncpu limit s i) := inferInstanceAs (Decidable (∀ tmp ∈ _, _))

/-- A process that a signal of the cycle does not reach has no record after it. -/
theorem lookup_of_not_delivered (hc : Coherent (s.updated i))
    (hs : s.limitCycle ncpu limit i = some t) {pid : Pid} (hpid : pid ∈ (s.updated i).memberPids)
    (hfails : i.contFails pid = true ∨ Sleeps ncpu limit s i ∧ i.stopFails pid = true) :
    t.group.lookup pid = none := by
  have hdrop : ∀ (g : ProcessGroup) (node : ℕ), TableSound g → TableSound (g.dropMember node) :=
    fun _ node h => h.dropMember node
  have hsound := signalPass_invariant hdrop i.contFails (s.updated i).proclist.length 0 hc.table
  have hcont := lookup_wholePass hc.table i.contFails pid
  have hmembers := memberPids_wholePass i.contFails (s.updated i)
  rw [limitCycle_group hs]
  by_cases hfirst : i.contFails pid = true
  · rw [if_pos ⟨hpid, hfirst⟩] at hcont
    split_ifs
    · rw [lookup_wholePass hsound, hcont, ite_self]
    · exact hcont
  · obtain ⟨hsleeps, hstop⟩ := hfails.resolve_left hfirst
    rw [if_pos hsleeps, lookup_wholePass hsound, if_pos]
    refine ⟨?_, hstop⟩
    rw [hmembers]
    exact List.mem_filter.mpr ⟨hpid, by simpa using hfirst⟩

/-- When all signals are delivered, the cycle leaves the group that its update made. -/
theorem group_of_delivered (hmembers : (s.updated i).memberPids = i.yielded.map Process.pid)
    (hs : s.limitCycle ncpu limit i = some t) (hdelivered : Delivered ncpu limit s i) :
    t.group = s.updated i := by
  have hcont : ∀ pid ∈ (s.updated i).memberPids, i.contFails pid = false := by
    intro pid hpid
    obtain ⟨tmp, htmp, rfl⟩ := List.mem_map.mp (hmembers ▸ hpid)
    exact (hdelivered tmp htmp).1
  rw [limitCycle_group hs, signalPass_of_delivered hcont]
  split_ifs with hsleeps
  · refine signalPass_of_delivered ?_ _ _
    intro pid hpid
    obtain ⟨tmp, htmp, rfl⟩ := List.mem_map.mp (hmembers ▸ hpid)
    exact (hdelivered tmp htmp).2 hsleeps
  · rfl

/-- Every cycle keeps what a loop head keeps. -/
theorem held_of_cycle (h : Held s.group) (hv : ValidScan i.yielded)
    (hs : s.limitCycle ncpu limit i = some t) : Held t.group :=
  limitCycle_invariant (fun _ node h => h.dropMember node) hs (h.update i.now hv)

/-- From a balanced loop head a cycle comes to another exactly if no `kill` fails. -/
theorem balanced_of_cycle_iff (h : Held s.group) (hstored : LiveStored s.group)
    (hv : ValidScan i.yielded) (hs : s.limitCycle ncpu limit i = some t) :
    t.group.Balanced ↔ Delivered ncpu limit s i := by
  have hupdated : Held (s.updated i) := h.update i.now hv
  have hmembers : (s.updated i).memberPids = i.yielded.map Process.pid :=
    (update_spec h.coherent.table i.now hv).2.1
  have hheld := held_of_cycle h hv hs
  rw [hheld.balanced_iff]
  constructor
  · intro hkept
    by_contra hnot
    have hdrop : ∀ (g : ProcessGroup) (node : ℕ), g.records = (s.updated i).records →
        (g.dropMember node).records = (s.updated i).records := by
      intro g node hg
      rw [dropMember_records, hg]
    have hrecords : t.group.records = (s.updated i).records := limitCycle_invariant hdrop hs rfl
    simp only [Delivered, not_forall, not_and_or, Bool.not_eq_false, exists_prop] at hnot
    obtain ⟨tmp, htmp, hfails⟩ := hnot
    have hpid : tmp.pid ∈ (s.updated i).memberPids := by
      rw [hmembers]
      exact List.mem_map_of_mem htmp
    have hlost := lookup_of_not_delivered hupdated.coherent hs hpid hfails
    exact not_liveStored_of_lookup hheld.coherent.table hrecords hupdated hpid hlost hkept
  · intro hdelivered
    rw [group_of_delivered hmembers hs hdelivered]
    exact (update_owned i.now i.yielded s.group).2 hstored

/-- Along every run of `limit_process` the table owns the records at each loop head,
and closing the group frees all of them, if and only if no `kill` ever fails. In
every run no freed record is a member and none is freed twice. -/
theorem balanced_iff_delivered (target : Pid) (includeChildren : Bool) (start built : Timespec)
    {initial : List Process} (hinit : ValidScan initial) (timeSlot : ℚ) {cycles : List CycleInput}
    (hrun : Runs.AlongPartial (limitCycle ncpu limit) (fun _ i _ => ValidScan i.yielded)
      (enter target includeChildren start built initial timeSlot) cycles) :
    ((enter target includeChildren start built initial timeSlot).group.Balanced ∧
        Runs.AlongPartial (limitCycle ncpu limit) (fun _ _ t => t.group.Balanced)
          (enter target includeChildren start built initial timeSlot) cycles ↔
      Runs.AlongPartial (limitCycle ncpu limit) (fun s i _ => Delivered ncpu limit s i)
        (enter target includeChildren start built initial timeSlot) cycles) ∧
    (enter target includeChildren start built initial timeSlot).group.Safe ∧
      Runs.AlongPartial (limitCycle ncpu limit) (fun _ _ t => t.group.Safe)
        (enter target includeChildren start built initial timeSlot) cycles := by
  obtain ⟨hfresh, hfreshStored⟩ := held_fresh target includeChildren start
  have hheld : Held (enter target includeChildren start built initial timeSlot).group :=
    hfresh.update built hinit
  have hstored : LiveStored (enter target includeChildren start built initial timeSlot).group :=
    (update_owned built initial _).2 hfreshStored
  have hheldStep : ∀ (s : LimitState) (i : CycleInput) (t : LimitState), Held s.group →
      s.limitCycle ncpu limit i = some t → ValidScan i.yielded → Held t.group :=
    fun _ _ _ h ht hv => held_of_cycle h hv ht
  have hstep : ∀ (s : LimitState) (i : CycleInput) (t : LimitState),
      Held s.group ∧ LiveStored s.group → s.limitCycle ncpu limit i = some t →
        ValidScan i.yielded → t.group.Balanced → Held t.group ∧ LiveStored t.group := by
    intro s i t h ht hv hbalanced
    have hnext : Held t.group := held_of_cycle h.1 hv ht
    exact ⟨hnext, hnext.balanced_iff.mp hbalanced⟩
  refine ⟨?_, hheld.safe, ?_⟩
  · rw [Runs.alongPartial_congr_of_kept hstep
      (fun s i t h ht hv => balanced_of_cycle_iff h.1 h.2 hv ht) ⟨hheld, hstored⟩ hrun]
    exact and_iff_right (hheld.balanced_iff.mpr hstored)
  · exact (Runs.alongPartial_congr_of_invariant hheldStep
      (fun s i t h ht hv => iff_of_true (hheldStep s i t h ht hv).safe hv) hheld hrun).mpr hrun

end LimitState

/-- A cycle over one idle process that may or may not be signalled. -/
def idleCycle (permitted : Bool) (ms : ℤ) : CycleInput :=
  ⟨⟨0, ms * 1000000⟩, [idleProcess], none, fun _ => !permitted, fun _ => !permitted⟩

/-- The start of `limit_process` for it. -/
def idleStart : LimitState :=
  LimitState.enter 5 false ⟨0, 0⟩ ⟨0, 0⟩ [idleProcess] timeSlotBase

theorem balanced_iff_delivered_idle :
    Runs.AlongPartial (LimitState.limitCycle 1 (1 / 2)) (fun _ _ t => t.group.Balanced) idleStart
      [idleCycle true 1, idleCycle true 101] :=
  ((LimitState.balanced_iff_delivered 5 false ⟨0, 0⟩ ⟨0, 0⟩ (by decide) timeSlotBase
    (by decide +kernel)).1.mpr (by decide +kernel)).2

/-- When every `kill` fails for a process that stays alive, each cycle loses a record
of it, and the end of `limit_process` frees none of them. -/
theorem not_balanced_denied :
    ∃ s, Runs.runPartial (LimitState.limitCycle 1 (1 / 2)) idleStart
        [idleCycle false 1, idleCycle false 101, idleCycle false 201] = some s ∧
      ¬ s.group.Balanced ∧ s.group.closeProcessGroup.map (fun rs => rs.live.card) = some 3 := by
  have hrun : ((Runs.runPartial (LimitState.limitCycle 1 (1 / 2)) idleStart
      [idleCycle false 1, idleCycle false 101, idleCycle false 201]).bind
        fun s => s.group.closeProcessGroup).map (fun rs => rs.live.card) = some 3 := by
    decide +kernel
  obtain ⟨rs, hrs, hcard⟩ := Option.map_eq_some_iff.mp hrun
  obtain ⟨s, hs, hclose⟩ := Option.bind_eq_some_iff.mp hrs
  refine ⟨s, hs, fun h => ?_, by rw [hclose, Option.map_some, hcard]⟩
  obtain ⟨rs', hrs', hempty⟩ := h.owned.closes
  cases hclose.symm.trans hrs'
  rw [hempty] at hcard
  cases hcard

end CpuLimit
