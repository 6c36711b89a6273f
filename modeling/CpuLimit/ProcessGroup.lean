import CpuLimit.ProcessTable
import CpuLimit.Library.Runs

/-!
# The process group

`process_group.c`: the group of monitored processes and its update from a scan
of the process list. A scan is the sequence of descriptors that
`get_next_process` yields; it is empty when the iterator could not be opened.
The member list is cleared and rebuilt by every update, while the table only
gains records there and loses them when a signal cannot be delivered.
-/
namespace CpuLimit

open Library

/-- `struct process_group`, with the heap that its records live in. -/
structure ProcessGroup where
  records : Records
  proctable : ProcessTable
  proclist : List RecordId
  targetPid : Pid
  includeChildren : Bool
  lastUpdate : Timespec

/-- The weight `ALPHA` of a new sample. -/
def alpha : ℚ := 8 / 100

/-- `MIN_DT`: the shortest interval, in milliseconds, over which usage is sampled. -/
def minDt : ℚ := 20

/-- The usage update of a process that is already in the table: `p` is its
record and `tmp` the descriptor just read. -/
def refresh (dt : ℚ) (tmp p : Process) : Process :=
  let sample := cMin ((tmp.cputime - p.cputime) / dt) 1
  { p with
    cpuUsage :=
      if p.cpuUsage < 0 then sample
      else (1 - alpha) * p.cpuUsage + alpha * sample
    cputime := tmp.cputime }

@[simp] theorem refresh_pid (dt : ℚ) (tmp p : Process) : (refresh dt tmp p).pid = p.pid := rfl

@[simp] theorem refresh_cputime (dt : ℚ) (tmp p : Process) :
    (refresh dt tmp p).cputime = tmp.cputime := rfl

/-- The descriptor of a process on its first sighting. -/
def newcomer (tmp : Process) : Process := { tmp with cpuUsage := -1 }

namespace ProcessGroup

/-- One turn of the loop of `update_process_group`. -/
def updateStep (dt : ℚ) (g : ProcessGroup) (tmp : Process) : ProcessGroup :=
  match processTableFind g.records g.proctable tmp with
  | none =>
    -- process is new. add it
    let dup := g.records.processDup (newcomer tmp)
    { g with
      records := dup.1
      proctable := processTableAdd dup.1 g.proctable dup.2
      proclist := addElem g.proclist dup.2 }
  | some p =>
    let g := { g with proclist := addElem g.proclist p }
    if dt < minDt then g
    else { g with records := g.records.write p (refresh dt tmp (g.records.cell p)) }

/-- `clear_list` and `init_list` on the member list. -/
def clearMembers (g : ProcessGroup) : ProcessGroup := { g with proclist := [] }

/-- The end of `update_process_group`: a short interval keeps the old timestamp. -/
def stamp (now : Timespec) (g : ProcessGroup) : ProcessGroup :=
  if timediffInMs now g.lastUpdate < minDt then g else { g with lastUpdate := now }

/-- `update_process_group` at clock reading `now`, over the descriptors yielded
by the process iterator. -/
def update (now : Timespec) (yielded : List Process) (g : ProcessGroup) : ProcessGroup :=
  let dt := timediffInMs now g.lastUpdate
  stamp now (yielded.foldl (updateStep dt) g.clearMembers)

/-- `remove_process`. The record leaves the table; nothing frees it. -/
def removeProcess (g : ProcessGroup) (pid : Pid) : ProcessGroup :=
  { g with proctable := (processTableDelPid g.records g.proctable pid).2 }

/-- What `limit_process` does with a member it could not signal: `delete_node`
on its node, then `remove_process` on its `pid`. -/
def dropMember (g : ProcessGroup) (node : ℕ) : ProcessGroup :=
  match g.proclist[node]? with
  | none => g
  | some id =>
    removeProcess { g with proclist := deleteNode g.proclist node } (g.records.pidOf id)

/-- The group before the first update of `init_process_group`, with the clock
reading that it stores in `last_update`. -/
def fresh (target : Pid) (includeChildren : Bool) (start : Timespec) : ProcessGroup :=
  ⟨Records.empty, processTableInit 2048, [], target, includeChildren, start⟩

/-- `init_process_group`: two clock readings and one scan. -/
def initProcessGroup (target : Pid) (includeChildren : Bool) (start now : Timespec)
    (yielded : List Process) : ProcessGroup :=
  update now yielded (fresh target includeChildren start)

/-- The `pid`s of the member list. -/
def memberPids (g : ProcessGroup) : List Pid := g.proclist.map g.records.pidOf

/-- The record that `process_table_find_pid` returns, read through its address. -/
def lookup (g : ProcessGroup) (pid : Pid) : Option Process :=
  (processTableFindPid g.records g.proctable pid).map g.records.cell

/-- All addresses in the table, bucket by bucket. -/
def tableRecords (g : ProcessGroup) : List RecordId :=
  ((List.range g.proctable.hashsize.toNat).map Int.ofNat).flatMap
    (ChainedTable.bucket g.proctable.table)

/-- The table is sound, and the members are distinct processes whose data is
the very record that the table returns for their `pid`. -/
structure Coherent (g : ProcessGroup) : Prop where
  table : TableOk g.records g.proctable
  found : ∀ id ∈ g.proclist,
    processTableFindPid g.records g.proctable (g.records.pidOf id) = some id
  nodup : g.memberPids.Nodup

/-- Scans list every process once, under a positive `pid`. -/
def ValidScan (yielded : List Process) : Prop :=
  (yielded.map Process.pid).Nodup ∧ ∀ tmp ∈ yielded, 0 < tmp.pid

theorem ValidScan.find?_eq_some_iff {yielded : List Process} (hv : ValidScan yielded) {pid : Pid}
    {p : Process} :
    (yielded.find? fun tmp => tmp.pid = pid) = some p ↔ p ∈ yielded ∧ p.pid = pid := by
  constructor
  · intro h
    exact ⟨List.mem_of_find?_eq_some h, by simpa using List.find?_some h⟩
  · intro ⟨hp, hpid⟩
    cases hx : yielded.find? fun tmp => tmp.pid = pid with
    | none => exact absurd hpid (by simpa using List.find?_eq_none.mp hx p hp)
    | some x =>
      have hxpid : x.pid = pid := by simpa using List.find?_some hx
      rw [List.inj_on_of_nodup_map hv.1 (List.mem_of_find?_eq_some hx) hp (hxpid.trans hpid.symm)]

/-! ## One turn of the update loop -/

section UpdateStep

variable {g : ProcessGroup} (dt : ℚ) {tmp : Process}

theorem updateStep_new (hn : processTableFindPid g.records g.proctable tmp.pid = none) :
    updateStep dt g tmp =
      { g with
        records := (g.records.processDup (newcomer tmp)).1
        proctable :=
          processTableAdd (g.records.processDup (newcomer tmp)).1 g.proctable g.records.next
        proclist := g.proclist ++ [g.records.next] } := by
  rw [← processTableFind_eq_findPid] at hn
  simp only [updateStep, hn]
  rfl

theorem updateStep_seen {p : RecordId}
    (hs : processTableFindPid g.records g.proctable tmp.pid = some p) :
    updateStep dt g tmp =
      { g with
        proclist := g.proclist ++ [p]
        records := if dt < minDt then g.records
          else g.records.write p (refresh dt tmp (g.records.cell p)) } := by
  rw [← processTableFind_eq_findPid] at hs
  simp only [updateStep, hs, addElem]
  split_ifs <;> rfl

theorem Coherent.lt_next (h : Coherent g) {id : RecordId} (hid : id ∈ g.proclist) :
    id < g.records.next :=
  h.table.allocated id ((h.table.findPid_eq_some_iff _ _).mp (h.found id hid)).1

/-- The new record is appended; old members keep their addresses and their `pid`s. -/
theorem Coherent.updateStep_new (h : Coherent g) (hpos : 0 < tmp.pid)
    (hn : processTableFindPid g.records g.proctable tmp.pid = none) :
    Coherent (updateStep dt g tmp) ∧
      (updateStep dt g tmp).memberPids = g.memberPids ++ [tmp.pid] := by
  have hpids : (updateStep dt g tmp).memberPids = g.memberPids ++ [tmp.pid] := by
    rw [ProcessGroup.updateStep_new dt hn]
    simp only [memberPids, List.map_append, List.map_singleton]
    congr 1
    · exact List.map_congr_left fun id hid =>
        g.records.pidOf_processDup_of_lt _ (h.lt_next hid)
    · simp [Records.pidOf, newcomer]
  refine ⟨⟨?_, ?_, ?_⟩, hpids⟩
  · rw [ProcessGroup.updateStep_new dt hn]
    exact h.table.add (newcomer tmp) hpos hn
  · rw [ProcessGroup.updateStep_new dt hn]
    intro id hid
    dsimp only at hid ⊢
    rw [h.table.findPid_add (newcomer tmp) hn]
    rcases List.mem_append.mp hid with hid | hid
    · have hf := h.found id hid
      rw [g.records.pidOf_processDup_of_lt _ (h.lt_next hid), if_neg, hf]
      intro he
      change tmp.pid = g.records.pidOf id at he
      rw [← he, hn] at hf
      cases hf
    · rw [List.mem_singleton.mp hid, if_pos]
      simp [Records.pidOf]
  · rw [hpids, List.nodup_append]
    refine ⟨h.nodup, List.nodup_singleton _, ?_⟩
    intro pid hpid pid' hpid' he
    obtain ⟨id, hid, rfl⟩ := List.mem_map.mp hpid
    have hf := h.found id hid
    rw [he, List.mem_singleton.mp hpid', hn] at hf
    cases hf

/-- A known process joins the list under the record it already has. -/
theorem Coherent.updateStep_seen (h : Coherent g) {p : RecordId}
    (hs : processTableFindPid g.records g.proctable tmp.pid = some p)
    (hfresh : tmp.pid ∉ g.memberPids) :
    Coherent (updateStep dt g tmp) ∧
      (updateStep dt g tmp).memberPids = g.memberPids ++ [tmp.pid] := by
  have hp : g.records.pidOf p = tmp.pid := ((h.table.findPid_eq_some_iff _ _).mp hs).2
  have hkey : ∀ id, (updateStep dt g tmp).records.pidOf id = g.records.pidOf id := by
    intro id
    rw [ProcessGroup.updateStep_seen dt hs]
    dsimp only
    split_ifs
    · rfl
    · exact g.records.pidOf_write p id _ rfl
  have hlist : (updateStep dt g tmp).proclist = g.proclist ++ [p] := by
    rw [ProcessGroup.updateStep_seen dt hs]
  have htable : TableOk (updateStep dt g tmp).records (updateStep dt g tmp).proctable := by
    rw [ProcessGroup.updateStep_seen dt hs]
    dsimp only
    split_ifs
    · exact h.table
    · exact h.table.write p _ rfl
  have hfind : ∀ pid, processTableFindPid (updateStep dt g tmp).records
      (updateStep dt g tmp).proctable pid =
      processTableFindPid g.records g.proctable pid := by
    intro pid
    rw [ProcessGroup.updateStep_seen dt hs]
    dsimp only
    split_ifs
    · rfl
    · exact TableOk.findPid_write p (refresh dt tmp (g.records.cell p)) rfl pid
  have hpids : (updateStep dt g tmp).memberPids = g.memberPids ++ [tmp.pid] := by
    simp only [memberPids, hlist, List.map_append, List.map_singleton, hkey, hp]
    rw [List.map_congr_left fun id _ => hkey id]
  refine ⟨⟨htable, ?_, ?_⟩, hpids⟩
  · intro id hid
    rw [hlist] at hid
    rw [hkey, hfind]
    rcases List.mem_append.mp hid with hid | hid
    · exact h.found id hid
    · rw [List.mem_singleton.mp hid, hp, hs]
  · rw [hpids, List.nodup_append]
    refine ⟨h.nodup, List.nodup_singleton _, ?_⟩
    intro pid hpid pid' hpid' he
    rw [he, List.mem_singleton.mp hpid'] at hpid
    exact hfresh hpid

theorem Coherent.updateStep (h : Coherent g) (hpos : 0 < tmp.pid)
    (hfresh : tmp.pid ∉ g.memberPids) :
    Coherent (updateStep dt g tmp) ∧
      (ProcessGroup.updateStep dt g tmp).memberPids = g.memberPids ++ [tmp.pid] := by
  cases hf : processTableFindPid g.records g.proctable tmp.pid with
  | none => exact h.updateStep_new dt hpos hf
  | some p => exact h.updateStep_seen dt hf hfresh

/-- A newcomer is found under its own `pid`; all other results stay. -/
theorem lookup_updateStep_new (h : TableOk g.records g.proctable)
    (hn : processTableFindPid g.records g.proctable tmp.pid = none) (pid : Pid) :
    (updateStep dt g tmp).lookup pid =
      if tmp.pid = pid then some (newcomer tmp) else g.lookup pid := by
  rw [updateStep_new dt hn]
  simp only [lookup]
  rw [h.findPid_add (newcomer tmp) hn]
  change (if tmp.pid = pid then _ else _ : Option RecordId).map _ = _
  by_cases he : tmp.pid = pid
  · simp [he]
  · rw [if_neg he, if_neg he]
    cases hq : processTableFindPid g.records g.proctable pid with
    | none => rfl
    | some id =>
      have hlt : id < g.records.next := h.allocated id ((h.findPid_eq_some_iff _ _).mp hq).1
      simp [hlt.ne]

/-- A known process has its record refreshed in place, unless the interval was short. -/
theorem lookup_updateStep_seen (h : TableOk g.records g.proctable) {p : RecordId}
    (hs : processTableFindPid g.records g.proctable tmp.pid = some p) (pid : Pid) :
    (updateStep dt g tmp).lookup pid =
      if tmp.pid = pid then
        some (if dt < minDt then g.records.cell p else refresh dt tmp (g.records.cell p))
      else g.lookup pid := by
  rw [updateStep_seen dt hs]
  simp only [lookup]
  by_cases hdt : dt < minDt
  · simp only [if_pos hdt]
    by_cases he : tmp.pid = pid
    · subst he; simp [hs]
    · rw [if_neg he]
  · simp only [if_neg hdt]
    rw [TableOk.findPid_write p (refresh dt tmp (g.records.cell p)) rfl]
    by_cases he : tmp.pid = pid
    · subst he; simp [hs]
    · rw [if_neg he]
      cases hq : processTableFindPid g.records g.proctable pid with
      | none => rfl
      | some id =>
        have hne : id ≠ p := by
          rintro rfl
          have hid := ((h.findPid_eq_some_iff _ _).mp hq).2
          have hp := ((h.findPid_eq_some_iff _ _).mp hs).2
          exact he (hp.symm.trans hid)
        simp [hne]

/-- What an update with interval `dt` makes of a record and of the descriptor
that the scan reports under the same `pid`, either of which may be absent. -/
def observe (dt : ℚ) : Option Process → Option Process → Option Process
  | stored, none => stored
  | none, some tmp => some (newcomer tmp)
  | some p, some tmp => some (if dt < minDt then p else refresh dt tmp p)

theorem lookup_updateStep (h : TableOk g.records g.proctable) (pid : Pid) :
    (updateStep dt g tmp).lookup pid =
      if tmp.pid = pid then observe dt (g.lookup pid) (some tmp) else g.lookup pid := by
  cases hf : processTableFindPid g.records g.proctable tmp.pid with
  | none =>
    rw [lookup_updateStep_new dt h hf]
    by_cases he : tmp.pid = pid
    · subst he; simp [lookup, hf, observe]
    · simp [he]
  | some p =>
    rw [lookup_updateStep_seen dt h hf]
    by_cases he : tmp.pid = pid
    · subst he; simp [lookup, hf, observe]
    · simp [he]

end UpdateStep

/-! ## Whole updates -/

section Update

variable {g : ProcessGroup}

theorem Coherent.clearMembers (h : TableOk g.records g.proctable) : Coherent g.clearMembers :=
  ⟨h, by simp [ProcessGroup.clearMembers], by simp [ProcessGroup.clearMembers, memberPids]⟩

@[simp] theorem updateStep_lastUpdate (dt : ℚ) (g : ProcessGroup) (tmp : Process) :
    (updateStep dt g tmp).lastUpdate = g.lastUpdate := by
  unfold updateStep
  split
  · rfl
  · dsimp only; split_ifs <;> rfl

@[simp] theorem foldl_updateStep_lastUpdate (dt : ℚ) (yielded : List Process)
    (g : ProcessGroup) : (yielded.foldl (updateStep dt) g).lastUpdate = g.lastUpdate := by
  induction yielded generalizing g with
  | nil => rfl
  | cons tmp rest ih => rw [List.foldl_cons, ih, updateStep_lastUpdate]

/-- The loop of `update_process_group`: members are appended in scan order and
each record is observed once. The induction is over the rest of the scan. -/
theorem Coherent.foldl_updateStep (dt : ℚ) {yielded : List Process} (h : Coherent g)
    (hnd : (g.memberPids ++ yielded.map Process.pid).Nodup) (hpos : ∀ tmp ∈ yielded, 0 < tmp.pid) :
    Coherent (yielded.foldl (ProcessGroup.updateStep dt) g) ∧
      (yielded.foldl (ProcessGroup.updateStep dt) g).memberPids =
        g.memberPids ++ yielded.map Process.pid ∧
      ∀ pid, (yielded.foldl (ProcessGroup.updateStep dt) g).lookup pid =
        observe dt (g.lookup pid) (yielded.find? fun tmp => tmp.pid = pid) := by
  induction yielded generalizing g with
  | nil => exact ⟨h, by simp, fun pid => by simp [observe]⟩
  | cons tmp rest ih =>
    have hfresh : tmp.pid ∉ g.memberPids := fun hm =>
      (List.nodup_append.mp hnd).2.2 _ hm _ (by simp) rfl
    obtain ⟨hstep, hpids⟩ := h.updateStep dt (hpos tmp (by simp)) hfresh
    have hnd' : ((ProcessGroup.updateStep dt g tmp).memberPids ++
        rest.map Process.pid).Nodup := by
      rw [hpids]
      simpa using hnd
    obtain ⟨hc, hm, hl⟩ := ih hstep hnd' fun x hx => hpos x (by simp [hx])
    refine ⟨hc, ?_, ?_⟩
    · rw [List.foldl_cons, hm, hpids]
      simp
    · intro pid
      rw [List.foldl_cons, hl, lookup_updateStep dt h.table]
      by_cases he : tmp.pid = pid
      · have hrest : (rest.find? fun x => x.pid = pid) = none := by
          rw [List.find?_eq_none]
          intro x hx hxp
          have hnd'' := (List.nodup_append.mp hnd).2.1
          rw [List.map_cons, List.nodup_cons] at hnd''
          have hxpid : x.pid = tmp.pid := (by simpa using hxp : x.pid = pid).trans he.symm
          exact hnd''.1 (hxpid ▸ List.mem_map_of_mem hx)
        rw [if_pos he, hrest, List.find?_cons_of_pos (by simpa using he)]
        rfl
      · rw [if_neg he, List.find?_cons_of_neg (by simpa using he)]

@[simp] theorem stamp_records (now : Timespec) (g : ProcessGroup) :
    (stamp now g).records = g.records := by
  unfold stamp; split_ifs <;> rfl

@[simp] theorem stamp_proctable (now : Timespec) (g : ProcessGroup) :
    (stamp now g).proctable = g.proctable := by
  unfold stamp; split_ifs <;> rfl

@[simp] theorem stamp_proclist (now : Timespec) (g : ProcessGroup) :
    (stamp now g).proclist = g.proclist := by
  unfold stamp; split_ifs <;> rfl

@[simp] theorem stamp_lastUpdate (now : Timespec) (g : ProcessGroup) :
    (stamp now g).lastUpdate =
      if timediffInMs now g.lastUpdate < minDt then g.lastUpdate else now := by
  unfold stamp; split_ifs <;> rfl

theorem Coherent.stamp (h : Coherent g) (now : Timespec) : Coherent (stamp now g) := by
  refine ⟨?_, ?_, ?_⟩
  · simpa using h.table
  · simpa using h.found
  · simpa [memberPids] using h.nodup

/-- One spec for `update_process_group`: from any sound table it leaves a
coherent group, whose members are the scan in its order and whose records are
the old ones observed through the scan. -/
theorem update_spec (h : TableOk g.records g.proctable) (now : Timespec)
    {yielded : List Process} (hv : ValidScan yielded) :
    Coherent (update now yielded g) ∧
      (update now yielded g).memberPids = yielded.map Process.pid ∧
      ∀ pid, (update now yielded g).lookup pid =
        observe (timediffInMs now g.lastUpdate) (g.lookup pid)
          (yielded.find? fun tmp => tmp.pid = pid) := by
  obtain ⟨hc, hm, hl⟩ := (Coherent.clearMembers h).foldl_updateStep
    (timediffInMs now g.lastUpdate) (by simpa [memberPids, clearMembers] using hv.1) hv.2
  refine ⟨hc.stamp now, ?_, ?_⟩
  · simpa [update, memberPids, clearMembers] using hm
  · intro pid
    simpa [update, lookup, clearMembers] using hl pid

theorem update_lastUpdate (now : Timespec) (yielded : List Process) (g : ProcessGroup) :
    (update now yielded g).lastUpdate =
      if timediffInMs now g.lastUpdate < minDt then g.lastUpdate else now := by
  simp [update, clearMembers]

end Update

/-! ## Removals -/

section Remove

variable {g : ProcessGroup}

theorem lookup_removeProcess (h : TableOk g.records g.proctable) (pid pid' : Pid) :
    (g.removeProcess pid).lookup pid' = if pid = pid' then none else g.lookup pid' := by
  simp only [lookup, removeProcess, h.findPid_del]
  split_ifs <;> rfl

theorem dropMember_of_getElem {node : ℕ} {id : RecordId} (hid : g.proclist[node]? = some id) :
    g.dropMember node =
      removeProcess { g with proclist := g.proclist.eraseIdx node } (g.records.pidOf id) := by
  simp [dropMember, hid, deleteNode]

@[simp] theorem dropMember_lastUpdate (g : ProcessGroup) (node : ℕ) :
    (g.dropMember node).lastUpdate = g.lastUpdate := by
  unfold dropMember
  split <;> rfl

theorem getElem?_memberPids (g : ProcessGroup) (node : ℕ) :
    g.memberPids[node]? = (g.proclist[node]?).map g.records.pidOf := by
  simp [memberPids]

theorem getElem?_memberPids_of_some {node : ℕ} {id : RecordId}
    (hid : g.proclist[node]? = some id) : g.memberPids[node]? = some (g.records.pidOf id) := by
  rw [getElem?_memberPids, hid, Option.map_some]

theorem memberPids_dropMember (g : ProcessGroup) (node : ℕ) :
    (g.dropMember node).memberPids = g.memberPids.eraseIdx node := by
  cases hid : g.proclist[node]? with
  | none =>
    have hlen : g.proclist.length ≤ node := List.getElem?_eq_none_iff.mp hid
    rw [List.eraseIdx_of_length_le (by simpa [memberPids] using hlen)]
    simp [dropMember, hid]
  | some id =>
    rw [dropMember_of_getElem hid]
    simp [memberPids, removeProcess, List.eraseIdx_map]

theorem lookup_dropMember (h : TableOk g.records g.proctable) (node : ℕ) (pid : Pid) :
    (g.dropMember node).lookup pid =
      if g.memberPids[node]? = some pid then none else g.lookup pid := by
  cases hid : g.proclist[node]? with
  | none => simp [dropMember, hid, memberPids]
  | some id =>
    rw [dropMember_of_getElem hid]
    have hl := lookup_removeProcess (g := { g with proclist := g.proclist.eraseIdx node }) h
      (g.records.pidOf id) pid
    rw [hl]
    simp only [memberPids, List.getElem?_map, hid, Option.map_some, Option.some.injEq]
    rfl

/-- The two deletions of a failed signal keep list and table in step. -/
theorem Coherent.dropMember (h : Coherent g) (node : ℕ) : Coherent (g.dropMember node) := by
  cases hid : g.proclist[node]? with
  | none => simpa [ProcessGroup.dropMember, hid] using h
  | some id =>
    have hnd : (g.dropMember node).memberPids.Nodup := by
      rw [memberPids_dropMember]
      exact h.nodup.sublist (List.eraseIdx_sublist _ _)
    rw [dropMember_of_getElem hid] at hnd ⊢
    refine ⟨h.table.del _, ?_, hnd⟩
    intro id' hid'
    change id' ∈ g.proclist.eraseIdx node at hid'
    change processTableFindPid g.records
      (processTableDelPid g.records g.proctable (g.records.pidOf id)).2 _ = some id'
    rw [h.table.findPid_del, if_neg]
    · exact h.found id' (List.mem_of_mem_eraseIdx hid')
    · intro he
      obtain ⟨i, hi, hne, rfl⟩ := List.mem_eraseIdx_iff_getElem.mp hid'
      obtain ⟨hnode, rfl⟩ := List.getElem?_eq_some_iff.mp hid
      have hi' : i < g.memberPids.length := by simpa [memberPids] using hi
      have hnode' : node < g.memberPids.length := by simpa [memberPids] using hnode
      have hmi : g.memberPids[i] = g.memberPids[node] := by
        simp only [memberPids, List.getElem_map]
        exact he.symm
      exact hne ((h.nodup.getElem_inj_iff).mp hmi)

end Remove

/-! ## Histories of a group -/

/-- The operations that change a group after `init_process_group`. -/
inductive Op
  | update (now : Timespec) (yielded : List Process)
  | removeProcess (pid : Pid)
  | dropMember (node : ℕ)

def apply (g : ProcessGroup) : Op → ProcessGroup
  | .update now yielded => g.update now yielded
  | .removeProcess pid => g.removeProcess pid
  | .dropMember node => g.dropMember node

/-- Every scan of the operation is valid. -/
def Op.Valid : Op → Prop
  | .update _ yielded => ValidScan yielded
  | .removeProcess _ => True
  | .dropMember _ => True

/-- The operation is one that `limit_process` performs as a whole: it never
removes a process from the table alone. -/
def Op.OfLimiter : Op → Prop
  | .update _ yielded => ValidScan yielded
  | .removeProcess _ => False
  | .dropMember _ => True

instance (yielded : List Process) : Decidable (ValidScan yielded) :=
  inferInstanceAs (Decidable (_ ∧ _))

instance (op : Op) : Decidable op.Valid :=
  match op with
  | .update _ yielded => inferInstanceAs (Decidable (ValidScan yielded))
  | .removeProcess _ => inferInstanceAs (Decidable True)
  | .dropMember _ => inferInstanceAs (Decidable True)

instance (op : Op) : Decidable op.OfLimiter :=
  match op with
  | .update _ yielded => inferInstanceAs (Decidable (ValidScan yielded))
  | .removeProcess _ => inferInstanceAs (Decidable False)
  | .dropMember _ => inferInstanceAs (Decidable True)

theorem Op.OfLimiter.valid {op : Op} (h : op.OfLimiter) : op.Valid := by
  cases op with
  | update now yielded => exact h
  | removeProcess pid => exact h.elim
  | dropMember node => trivial

/-- The invariant that even bare removals keep. -/
def TableSound (g : ProcessGroup) : Prop := TableOk g.records g.proctable

theorem tableSound_fresh (target : Pid) (includeChildren : Bool) (start : Timespec) :
    TableSound (fresh target includeChildren start) :=
  tableOk_init (by norm_num) _

theorem TableSound.removeProcess {g : ProcessGroup} (h : TableSound g) (pid : Pid) :
    TableSound (g.removeProcess pid) :=
  h.del pid

theorem TableSound.dropMember {g : ProcessGroup} (h : TableSound g) (node : ℕ) :
    TableSound (g.dropMember node) := by
  cases hid : g.proclist[node]? with
  | none => simpa [ProcessGroup.dropMember, hid] using h
  | some id =>
    rw [dropMember_of_getElem hid]
    exact h.del _

theorem TableSound.apply {g : ProcessGroup} (h : TableSound g) {op : Op} (hop : op.Valid) :
    TableSound (g.apply op) := by
  cases op with
  | update now yielded => exact (update_spec h now hop).1.table
  | removeProcess pid => exact h.removeProcess pid
  | dropMember node => exact h.dropMember node

theorem Coherent.apply {g : ProcessGroup} (h : Coherent g) {op : Op} (hop : op.OfLimiter) :
    Coherent (g.apply op) := by
  cases op with
  | update now yielded => exact (update_spec h.table now hop).1
  | removeProcess pid => exact hop.elim
  | dropMember node => exact h.dropMember node

theorem TableSound.run {g : ProcessGroup} (h : TableSound g) {ops : List Op}
    (hops : ∀ op ∈ ops, op.Valid) : TableSound (Runs.run ProcessGroup.apply g ops) :=
  Runs.run_invariant (fun _ _ h hop => h.apply hop) h (Runs.along_of_forall hops)

/-- The addresses in the table are those on its chains: no chain lies elsewhere. -/
theorem mem_tableRecords_iff {g : ProcessGroup} (h : TableSound g) {id : RecordId} :
    id ∈ g.tableRecords ↔ ChainedTable.Stored g.proctable.table id := by
  simp only [tableRecords, List.mem_flatMap, List.mem_map, List.mem_range]
  constructor
  · rintro ⟨i, -, hid⟩
    exact ⟨i, hid⟩
  · rintro ⟨i, hid⟩
    have hi : hashPid g.proctable.hashsize (g.records.pidOf id) = i := h.placed.placed i id hid
    obtain ⟨-, hlo, hhi⟩ := h.hashPid_eq (h.pid_pos id ⟨i, hid⟩)
    rw [hi] at hlo hhi
    refine ⟨i, ⟨i.toNat, ?_, Int.toNat_of_nonneg hlo⟩, hid⟩
    omega

/-- The `pid`s in the table. -/
def tablePids (g : ProcessGroup) : List Pid := g.tableRecords.map g.records.pidOf

theorem mem_tablePids_iff {g : ProcessGroup} (h : TableSound g) {pid : Pid} :
    pid ∈ g.tablePids ↔ (g.lookup pid).isSome := by
  simp only [tablePids, List.mem_map, mem_tableRecords_iff h, lookup, Option.isSome_map,
    Option.isSome_iff_exists, h.findPid_eq_some_iff]

theorem nodup_tablePids {g : ProcessGroup} (h : TableSound g) : g.tablePids.Nodup :=
  h.placed.nodup_flatMap (List.nodup_range.map fun _ _ he => Int.ofNat.inj he)

/-- Table and member list in step, as `limit_process` relies on it. -/
structure InStep (g : ProcessGroup) : Prop where
  bucket : ∀ i, ∀ id ∈ ChainedTable.bucket g.proctable.table i,
    i = g.records.pidOf id % g.proctable.hashsize ∧ 0 ≤ i ∧ i < g.proctable.hashsize
  distinct : (g.tableRecords.map g.records.pidOf).Nodup
  members_nodup : g.memberPids.Nodup
  members_found : ∀ id ∈ g.proclist,
    processTableFindPid g.records g.proctable (g.records.pidOf id) = some id

theorem Coherent.inStep {g : ProcessGroup} (h : Coherent g) : InStep g where
  bucket i id hid := by
    have hi : hashPid g.proctable.hashsize (g.records.pidOf id) = i :=
      h.table.placed.placed i id hid
    obtain ⟨he, hlo, hhi⟩ := h.table.hashPid_eq (h.table.pid_pos id ⟨i, hid⟩)
    rw [hi] at he hlo hhi
    exact ⟨he, hlo, hhi⟩
  distinct := nodup_tablePids h.table
  members_nodup := h.nodup
  members_found := h.found

/-- In every state that a limiter can bring its group to, table and members are
in step, and an update leaves exactly the scanned processes as members, in scan
order. The induction over the history carries `Coherent`. -/
theorem inStep_of_history (target : Pid) (includeChildren : Bool) (start now : Timespec)
    (yielded : List Process) (ops : List Op) (hscan : ValidScan yielded)
    (hops : ∀ op ∈ ops, op.OfLimiter) :
    let init := initProcessGroup target includeChildren start now yielded
    InStep (Runs.run apply init ops) ∧
      init.memberPids = yielded.map Process.pid ∧
      ∀ later scan, ValidScan scan →
        (update later scan (Runs.run apply init ops)).memberPids = scan.map Process.pid := by
  intro init
  have hinit := update_spec (tableSound_fresh target includeChildren start) now hscan
  have hrun : Coherent (Runs.run apply init ops) :=
    Runs.run_invariant (fun _ _ h hop => h.apply hop) hinit.1 (Runs.along_of_forall hops)
  exact ⟨hrun.inStep, hinit.2.1, fun later scan hs => (update_spec hrun.table later hs).2.1⟩

/-- Two processes whose `pid`s fall into one bucket. -/
def collidingScan : List Process := [⟨5, 1, 0, 0, ['a']⟩, ⟨2053, 5, 0, 0, ['b']⟩]

/-- The two come, the first cannot be signalled, both are seen again. -/
def collidingHistory : List Op :=
  [.update ⟨0, 30000000⟩ collidingScan, .dropMember 0, .update ⟨0, 60000000⟩ collidingScan]

theorem inStep_of_collidingHistory :
    InStep (Runs.run apply (initProcessGroup 5 true ⟨0, 0⟩ ⟨0, 0⟩ collidingScan)
      collidingHistory) :=
  (inStep_of_history 5 true ⟨0, 0⟩ ⟨0, 0⟩ collidingScan collidingHistory
    (by decide) (by decide)).1

end ProcessGroup

end CpuLimit
