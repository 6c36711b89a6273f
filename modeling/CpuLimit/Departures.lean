import CpuLimit.ProcessGroup

/-!
# Processes that leave the group

A record enters the table when an update meets a new process. It leaves when a
signal cannot be delivered, and in no other way: a process that is gone at the
next update keeps its record.
-/
namespace CpuLimit

open Library

namespace ProcessGroup

/-- The update leaves the table with the scanned processes only. So the table is no
larger than the group, and a process that was not a member just before is new. -/
structure Forgets (g : ProcessGroup) (now : Timespec) (yielded : List Process) : Prop where
  stored : ∀ pid, pid ∈ (g.update now yielded).tablePids ↔ pid ∈ yielded.map Process.pid
  bounded : (g.update now yielded).tableRecords.length ≤ (g.update now yielded).proclist.length
  anew : ∀ tmp ∈ yielded, tmp.pid ∉ g.memberPids →
    (g.update now yielded).lookup tmp.pid = some (newcomer tmp)

/-- No member leaves the group between the last signal and the update. -/
def NoneLeaves (g : ProcessGroup) (yielded : List Process) : Prop :=
  ∀ pid ∈ g.memberPids, pid ∈ yielded.map Process.pid

instance (g : ProcessGroup) (yielded : List Process) : Decidable (g.NoneLeaves yielded) :=
  inferInstanceAs (Decidable (∀ pid ∈ _, _))

/-- `Forgets` for each update of a history. -/
def UpdateForgets (g : ProcessGroup) : Op → Prop
  | .update now yielded => g.Forgets now yielded
  | .removeProcess _ => True
  | .dropMember _ => True

/-- `NoneLeaves` for each update of a history. -/
def NoneLeavesUnsignalled (g : ProcessGroup) : Op → Prop
  | .update _ yielded => g.NoneLeaves yielded
  | .removeProcess _ => True
  | .dropMember _ => True

instance (g : ProcessGroup) (op : Op) : Decidable (g.NoneLeavesUnsignalled op) :=
  match op with
  | .update _ yielded => inferInstanceAs (Decidable (g.NoneLeaves yielded))
  | .removeProcess _ => inferInstanceAs (Decidable True)
  | .dropMember _ => inferInstanceAs (Decidable True)

/-- The table has the members and no others. -/
structure InSync (g : ProcessGroup) : Prop where
  coherent : Coherent g
  stored : ∀ pid, (g.lookup pid).isSome ↔ pid ∈ g.memberPids

theorem inSync_fresh (target : Pid) (includeChildren : Bool) (start : Timespec) :
    InSync (fresh target includeChildren start) where
  coherent := .clearMembers (tableSound_fresh target includeChildren start)
  stored pid := iff_of_false (by simp [lookup, processTableFindPid, processTableFind, fresh,
    processTableInit, ChainedTable.empty]) (by simp [memberPids, fresh])

variable {g : ProcessGroup}

/-- What was stored stays, and what was scanned is stored. -/
theorem isSome_observe_iff (dt : ℚ) (stored seen : Option Process) :
    (observe dt stored seen).isSome ↔ stored.isSome ∨ seen.isSome := by
  cases stored <;> cases seen <;> simp [observe]

theorem isSome_find?_iff (yielded : List Process) (pid : Pid) :
    (yielded.find? fun tmp => tmp.pid = pid).isSome ↔ pid ∈ yielded.map Process.pid := by
  simp [List.find?_isSome]

theorem mem_tablePids_update_iff (h : TableSound g) (now : Timespec) {yielded : List Process}
    (hv : ValidScan yielded) (pid : Pid) :
    pid ∈ (g.update now yielded).tablePids ↔
      (g.lookup pid).isSome ∨ pid ∈ yielded.map Process.pid := by
  obtain ⟨hc, -, hl⟩ := update_spec h now hv
  rw [mem_tablePids_iff hc.table, hl, isSome_observe_iff, isSome_find?_iff]

/-- Starting from a table in sync, an update forgets exactly if nobody leaves. -/
theorem InSync.forgets_iff (h : InSync g) (now : Timespec) {yielded : List Process}
    (hv : ValidScan yielded) : g.Forgets now yielded ↔ g.NoneLeaves yielded := by
  obtain ⟨hc, hm, hl⟩ := update_spec h.coherent.table now hv
  have hmem := mem_tablePids_update_iff h.coherent.table now hv
  constructor
  · intro hforgets pid hpid
    have hstored : pid ∈ (g.update now yielded).tablePids :=
      (hmem pid).mpr (Or.inl ((h.stored pid).mpr hpid))
    exact (hforgets.stored pid).mp hstored
  · intro hnone
    have hstored : ∀ pid, pid ∈ (g.update now yielded).tablePids ↔
        pid ∈ yielded.map Process.pid := by
      intro pid
      rw [hmem, h.stored]
      exact ⟨fun hor => hor.elim (hnone pid) id, Or.inr⟩
    refine ⟨hstored, ?_, fun tmp htmp hleft => ?_⟩
    · have hsub : (g.update now yielded).tablePids ⊆ (g.update now yielded).memberPids := by
        intro pid hpid
        rw [hm]
        exact (hstored pid).mp hpid
      have hlen := ((nodup_tablePids hc.table).subperm hsub).length_le
      simpa [tablePids, memberPids] using hlen
    · have hnew : g.lookup tmp.pid = none := by
        rw [← Option.not_isSome_iff_eq_none, h.stored]
        exact hleft
      rw [hl, hnew, hv.find?_eq_some_iff.mpr ⟨htmp, rfl⟩]
      rfl

/-- A table that was in sync is so again after an update that forgets. -/
theorem InSync.update (h : InSync g) (now : Timespec) {yielded : List Process}
    (hv : ValidScan yielded) (hforgets : g.Forgets now yielded) :
    InSync (g.update now yielded) := by
  obtain ⟨hc, hm, -⟩ := update_spec h.coherent.table now hv
  refine ⟨hc, fun pid => ?_⟩
  rw [← mem_tablePids_iff hc.table, hforgets.stored, hm]

/-- A member that could not be signalled leaves both. -/
theorem InSync.dropMember (h : InSync g) (node : ℕ) : InSync (g.dropMember node) := by
  refine ⟨h.coherent.dropMember node, fun pid => ?_⟩
  rw [lookup_dropMember h.coherent.table, memberPids_dropMember]
  have herase : pid ∈ g.memberPids.eraseIdx node ↔
      pid ∈ g.memberPids ∧ g.memberPids[node]? ≠ some pid := by
    rw [List.mem_eraseIdx_iff_getElem?]
    constructor
    · rintro ⟨j, hj, hpid⟩
      refine ⟨List.mem_of_getElem? hpid, fun hnode => hj ?_⟩
      obtain ⟨hlt, -⟩ := List.getElem?_eq_some_iff.mp hpid
      exact (List.getElem?_inj hlt h.coherent.nodup).mp (hpid.trans hnode.symm)
    · rintro ⟨hpid, hnode⟩
      obtain ⟨j, hj⟩ := List.mem_iff_getElem?.mp hpid
      refine ⟨j, ?_, hj⟩
      rintro rfl
      exact hnode hj
  rw [herase, ← h.stored]
  split_ifs with hnode
  · simp [hnode]
  · simp [hnode]

theorem InSync.apply (h : InSync g) {op : Op} (hop : op.OfLimiter)
    (hforgets : g.UpdateForgets op) : InSync (g.apply op) := by
  cases op with
  | update now yielded => exact h.update now hop hforgets
  | removeProcess pid => exact hop.elim
  | dropMember node => exact h.dropMember node

theorem InSync.updateForgets_iff (h : InSync g) {op : Op} (hop : op.OfLimiter) :
    g.UpdateForgets op ↔ g.NoneLeavesUnsignalled op := by
  cases op with
  | update now yielded => exact h.forgets_iff now hop
  | removeProcess pid => exact Iff.rfl
  | dropMember node => exact Iff.rfl

/-- Along a run from `init_process_group` every update leaves the table with the
scanned processes only, if and only if no member ever leaves the group between two
updates without a signal having failed for it. The first violation of the one is the
first violation of the other, and up to there table and members are in sync. -/
theorem forgets_iff_noneLeaves (target : Pid) (includeChildren : Bool) (start built : Timespec)
    {initial : List Process} (hinit : ValidScan initial) {ops : List Op}
    (hops : ∀ op ∈ ops, op.OfLimiter) :
    Runs.Along apply UpdateForgets (fresh target includeChildren start)
        (.update built initial :: ops) ↔
      Runs.Along apply NoneLeavesUnsignalled
        (initProcessGroup target includeChildren start built initial) ops := by
  have hfresh := inSync_fresh target includeChildren start
  have hnone : (fresh target includeChildren start).NoneLeaves initial := by
    simp [NoneLeaves, memberPids, fresh]
  have hfirst := (hfresh.forgets_iff built hinit).mpr hnone
  have hsync : InSync (initProcessGroup target includeChildren start built initial) :=
    hfresh.update built hinit hfirst
  have hrest : Runs.Along apply UpdateForgets
      (initProcessGroup target includeChildren start built initial) ops ↔
        Runs.Along apply NoneLeavesUnsignalled
          (initProcessGroup target includeChildren start built initial) ops :=
    Runs.along_congr_of_kept (fun _ _ h hop hforgets => h.apply hop hforgets)
      (fun _ _ h hop => h.updateForgets_iff hop) hsync (Runs.along_of_forall hops)
  rw [Runs.along_cons, ← hrest]
  exact and_iff_right hfirst

/-- The two processes stay until a signal fails for the first of them. -/
theorem forgets_of_collidingHistory :
    Runs.Along apply UpdateForgets (fresh 5 true ⟨0, 0⟩)
      (.update ⟨0, 0⟩ collidingScan :: collidingHistory) :=
  (forgets_iff_noneLeaves 5 true ⟨0, 0⟩ ⟨0, 0⟩ (by decide) (by decide)).mpr (by decide +kernel)

/-- The second process exits before the next update, so no signal is sent to it. -/
theorem not_forgets_of_exit :
    ¬ Runs.Along apply UpdateForgets (fresh 5 true ⟨0, 0⟩)
      [.update ⟨0, 0⟩ collidingScan, .update ⟨0, 30000000⟩ (collidingScan.take 1)] := by
  intro h
  have hstored := (h.2.1.stored 2053).mp
  revert hstored
  decide +kernel

end ProcessGroup

end CpuLimit
