import CpuLimit.Library.Runs
import CpuLimit.ProcessTable

/-!
# Histories of the process table

What the process table is for: one list of records in the order in which they
were added. Any history of the five operations gives the results that this list
gives, for every size of the table, also when records share a `pid`. When records
are only added under a `pid` that was not found, the list is a finite map.
-/
namespace CpuLimit

open Library

/-- The operations of `process_table.h` on an initialised table. -/
inductive TableOp
  | add (p : RecordId)
  | find (p : Process)
  | findPid (pid : Pid)
  | del (p : Process)
  | delPid (pid : Pid)

/-- What an operation returns. -/
inductive TableResult
  | void
  | record (p : Option RecordId)
  | code (ret : ℤ)
  deriving DecidableEq

namespace TableOp

variable (rs : Records)

/-- The `pid` that the operation is about. -/
def pid : TableOp → Pid
  | .add p => rs.pidOf p
  | .find p => p.pid
  | .findPid pid => pid
  | .del p => p.pid
  | .delPid pid => pid

/-- The bucket index that the operation computes. -/
def idx (pt : ProcessTable) : TableOp → ℤ
  | .add p => procHash pt (rs.cell p)
  | .find p => procHash pt p
  | .findPid pid => procHash pt { Records.blank with pid := pid }
  | .del p => procHash pt p
  | .delPid pid => procHash pt { Records.blank with pid := pid }

end TableOp

/-- One operation on the table, over a heap in which the `pid`s of its records stay. -/
def tableStep (rs : Records) (pt : ProcessTable) : TableOp → ProcessTable × TableResult
  | .add p => (processTableAdd rs pt p, .void)
  | .find p => (pt, .record (processTableFind rs pt p))
  | .findPid pid => (pt, .record (processTableFindPid rs pt pid))
  | .del p => ((processTableDel rs pt p).2, .code (processTableDel rs pt p).1)
  | .delPid pid => ((processTableDelPid rs pt pid).2, .code (processTableDelPid rs pt pid).1)

/-! ## The list -/

section RecordList

variable (rs : Records) (l : List RecordId)

/-- The earliest record with a `pid`. -/
def listFind (pid : Pid) : Option RecordId := l.find? fun id => rs.pidOf id = pid

/-- Remove that record. -/
def listDel (pid : Pid) : List RecordId × TableResult :=
  match listFind rs l pid with
  | none => (l, .code 1)
  | some _ => (l.eraseP fun id => rs.pidOf id = pid, .code 0)

/-- The operations on the list of all records, in the order of their adding. -/
def listStep : TableOp → List RecordId × TableResult
  | .add p => (l ++ [p], .void)
  | .find p => (l, .record (listFind rs l p.pid))
  | .findPid pid => (l, .record (listFind rs l pid))
  | .del p => listDel rs l p.pid
  | .delPid pid => listDel rs l pid

end RecordList

/-! ## The map -/

/-- Forget the record of a `pid`. -/
def mapDel (m : Pid → Option RecordId) (pid : Pid) : (Pid → Option RecordId) × TableResult :=
  match m pid with
  | none => (m, .code 1)
  | some _ => (Function.update m pid none, .code 0)

/-- The operations on a map from `pid`s to records. -/
def mapStep (rs : Records) (m : Pid → Option RecordId) :
    TableOp → (Pid → Option RecordId) × TableResult
  | .add p => (Function.update m (rs.pidOf p) (some p), .void)
  | .find p => (m, .record (m p.pid))
  | .findPid pid => (m, .record (m pid))
  | .del p => mapDel m p.pid
  | .delPid pid => mapDel m pid

/-- A record is only added when none was found under its `pid`. -/
def Guarded (rs : Records) (pt : ProcessTable) : TableOp → Prop
  | .add p => processTableFindPid rs pt (rs.pidOf p) = none
  | .find _ | .findPid _ | .del _ | .delPid _ => True

instance (rs : Records) (pt : ProcessTable) (op : TableOp) : Decidable (Guarded rs pt op) :=
  match op with
  | .add p => inferInstanceAs (Decidable (processTableFindPid rs pt (rs.pidOf p) = none))
  | .find _ | .findPid _ | .del _ | .delPid _ => inferInstanceAs (Decidable True)

/-! ## The table holds the list -/

section Simulation

variable {rs : Records} {pt : ProcessTable} {l : List RecordId} {m : Pid → Option RecordId}

/-- The table of this size holds the records of the list. -/
structure HoldsList (rs : Records) (hashsize : ℤ) (pt : ProcessTable) (l : List RecordId) :
    Prop where
  hashsize_eq : pt.hashsize = hashsize
  holds : ChainedTable.Holds rs.pidOf (hashPid hashsize) pt.table l

theorem holdsList_init (rs : Records) (hashsize : ℤ) :
    HoldsList rs hashsize (processTableInit hashsize) [] :=
  ⟨rfl, ChainedTable.holds_empty⟩

/-- The result code says whether a record was found. -/
theorem processTableDelPid_code (rs : Records) (pt : ProcessTable) (pid : Pid) :
    (processTableDelPid rs pt pid).1 = if processTableFindPid rs pt pid = none then 1 else 0 := by
  rw [processTableFindPid_eq, ChainedTable.find, ChainedTable.bucket]
  unfold processTableDelPid processTableDel procHash locateNode
  cases ht : pt.table (hashPid pt.hashsize pid) with
  | none => simp [ht]
  | some bucket =>
    cases hf : bucket.findIdx? fun id => rs.pidOf id = pid with
    | none =>
      have hnone : bucket.find? (fun id => rs.pidOf id = pid) = none := by
        simpa [List.findIdx?_eq_none_iff, List.find?_eq_none] using hf
      simp [ht, hf, hnone]
    | some node =>
      have hsome : bucket.find? (fun id => rs.pidOf id = pid) ≠ none := by
        obtain ⟨hlt, hp, -⟩ := List.findIdx?_eq_some_iff_getElem.mp hf
        exact fun hnone => List.find?_eq_none.mp hnone _ (List.getElem_mem hlt) hp
      simp [ht, hf, hsome]

variable {hashsize : ℤ}

theorem listDel_eq (rs : Records) (l : List RecordId) (pid : Pid) :
    (listDel rs l pid).1 = l.eraseP fun id => rs.pidOf id = pid := by
  unfold listDel listFind
  cases hf : l.find? fun id => rs.pidOf id = pid with
  | none => exact (List.eraseP_eq_self_iff.mpr (List.find?_eq_none.mp hf)).symm
  | some id => rfl

theorem HoldsList.find_eq (h : HoldsList rs hashsize pt l) (pid : Pid) :
    processTableFindPid rs pt pid = listFind rs l pid := by
  rw [processTableFindPid_eq, h.hashsize_eq]
  exact h.holds.find_eq pid

theorem HoldsList.add (h : HoldsList rs hashsize pt l) (p : RecordId) :
    HoldsList rs hashsize (processTableAdd rs pt p) (l ++ [p]) where
  hashsize_eq := by rw [processTableAdd_hashsize, h.hashsize_eq]
  holds := by
    rw [processTableAdd_table, h.hashsize_eq]
    exact h.holds.add p

theorem HoldsList.del (h : HoldsList rs hashsize pt l) (pid : Pid) :
    HoldsList rs hashsize (processTableDelPid rs pt pid).2 (listDel rs l pid).1 ∧
      .code (processTableDelPid rs pt pid).1 = (listDel rs l pid).2 := by
  refine ⟨⟨by rw [processTableDelPid_hashsize, h.hashsize_eq], ?_⟩, ?_⟩
  · rw [processTableDelPid_table, h.hashsize_eq, listDel_eq]
    exact h.holds.del pid
  · rw [processTableDelPid_code, h.find_eq, listDel]
    cases listFind rs l pid <;> rfl

/-- One operation: the table goes on holding the list, and both give one result. -/
theorem HoldsList.step (h : HoldsList rs hashsize pt l) (op : TableOp) :
    HoldsList rs hashsize (tableStep rs pt op).1 (listStep rs l op).1 ∧
      (tableStep rs pt op).2 = (listStep rs l op).2 := by
  cases op with
  | add p => exact ⟨h.add p, rfl⟩
  | find p =>
    refine ⟨h, congrArg TableResult.record ?_⟩
    rw [processTableFind_eq_findPid, h.find_eq]
  | findPid pid => exact ⟨h, congrArg TableResult.record (h.find_eq pid)⟩
  | del p => exact h.del p.pid
  | delPid pid => exact h.del pid

/-- An operation on one `pid` leaves the results for the others. -/
theorem listFind_step_of_ne (rs : Records) (l : List RecordId) {op : TableOp} {pid : Pid}
    (hne : pid ≠ op.pid rs) : listFind rs (listStep rs l op).1 pid = listFind rs l pid := by
  cases op with
  | add p =>
    have hp : ¬ rs.pidOf p = pid := fun he => hne he.symm
    simp [listStep, listFind, hp]
  | find p => rfl
  | findPid pid' => rfl
  | del p =>
    rw [listStep, listDel_eq]
    exact ChainedTable.find?_eraseP_of_ne hne l
  | delPid pid' =>
    rw [listStep, listDel_eq]
    exact ChainedTable.find?_eraseP_of_ne hne l

/-- Nonnegative `pid`s hash into the table. -/
theorem HoldsList.idx_range (h : HoldsList rs hashsize pt l) (hsize : 1 ≤ hashsize) {op : TableOp}
    (hop : 0 ≤ op.pid rs) : 0 ≤ op.idx rs pt ∧ op.idx rs pt < hashsize := by
  have hidx : op.idx rs pt = op.pid rs % hashsize := by
    rw [← Int.tmod_eq_emod_of_nonneg hop, ← h.hashsize_eq]
    cases op <;> rfl
  rw [hidx]
  exact ⟨Int.emod_nonneg _ (by omega), Int.emod_lt_of_pos _ (by omega)⟩

/-- The table holds the list of a map. -/
def HoldsMap (rs : Records) (hashsize : ℤ) (pt : ProcessTable) (m : Pid → Option RecordId) :
    Prop :=
  ∃ l, HoldsList rs hashsize pt l ∧ ChainedTable.Represents rs.pidOf l m

theorem Represents.step (h : ChainedTable.Represents rs.pidOf l m) {op : TableOp}
    (hguard : ∀ p, op = .add p → m (rs.pidOf p) = none) :
    ChainedTable.Represents rs.pidOf (listStep rs l op).1 (mapStep rs m op).1 ∧
      (listStep rs l op).2 = (mapStep rs m op).2 := by
  have hdel : ∀ pid, ChainedTable.Represents rs.pidOf (listDel rs l pid).1 (mapDel m pid).1 ∧
      (listDel rs l pid).2 = (mapDel m pid).2 := by
    intro pid
    have hfind : listFind rs l pid = m pid := h.find_eq pid
    unfold listDel mapDel
    rw [hfind]
    cases m pid with
    | none => exact ⟨h, rfl⟩
    | some id => exact ⟨h.eraseP pid, rfl⟩
  cases op with
  | add p => exact ⟨h.append (hguard p rfl), rfl⟩
  | find p => exact ⟨h, congrArg TableResult.record (h.find_eq p.pid)⟩
  | findPid pid => exact ⟨h, congrArg TableResult.record (h.find_eq pid)⟩
  | del p => exact hdel p.pid
  | delPid pid => exact hdel pid

theorem HoldsMap.step (h : HoldsMap rs hashsize pt m) {op : TableOp} (hguard : Guarded rs pt op) :
    HoldsMap rs hashsize (tableStep rs pt op).1 (mapStep rs m op).1 ∧
      (tableStep rs pt op).2 = (mapStep rs m op).2 := by
  obtain ⟨l, hl, hm⟩ := h
  obtain ⟨htable, hresult⟩ := hl.step op
  have hadd : ∀ p, op = .add p → m (rs.pidOf p) = none := by
    rintro p rfl
    rw [← hm.find_eq]
    exact (hl.find_eq _).symm.trans hguard
  obtain ⟨hmap, hresult'⟩ := Represents.step hm hadd
  exact ⟨⟨_, htable, hmap⟩, hresult.trans hresult'⟩

end Simulation

/-- Every history of the table returns what the list of its records returns. On the
way each operation uses a bucket of the table and leaves the results for other
`pid`s. If records are only added when none is found, it returns what the map does. -/
theorem outputs_tableStep (rs : Records) {hashsize : ℤ} (hsize : 1 ≤ hashsize)
    (ops : List TableOp) (hops : ∀ op ∈ ops, 0 ≤ op.pid rs) :
    Runs.outputs (tableStep rs) (processTableInit hashsize) ops =
        Runs.outputs (listStep rs) [] ops ∧
      Runs.Along (Runs.mute (tableStep rs)) (fun pt op =>
        (0 ≤ op.idx rs pt ∧ op.idx rs pt < hashsize) ∧ ∀ pid, pid ≠ op.pid rs →
          processTableFindPid rs (tableStep rs pt op).1 pid = processTableFindPid rs pt pid)
        (processTableInit hashsize) ops ∧
      (Runs.Along (Runs.mute (tableStep rs)) (Guarded rs) (processTableInit hashsize) ops →
        Runs.outputs (tableStep rs) (processTableInit hashsize) ops =
          Runs.outputs (mapStep rs) (fun _ => none) ops) := by
  have hinit := holdsList_init rs hashsize
  have hnonneg : Runs.Along (Runs.mute (tableStep rs)) (fun _ op => 0 ≤ op.pid rs)
      (processTableInit hashsize) ops := Runs.along_of_forall hops
  refine ⟨?_, ?_, fun hguarded => ?_⟩
  · exact (Runs.outputs_eq_of_simulation (fun _ _ op h _ => h.step op) hinit hnonneg).1
  · have hstep : ∀ pt op, (∃ l, HoldsList rs hashsize pt l) → 0 ≤ op.pid rs →
        ∃ l, HoldsList rs hashsize (Runs.mute (tableStep rs) pt op) l :=
      fun _ op ⟨_, hl⟩ _ => ⟨_, (hl.step op).1⟩
    refine Runs.along_of_invariant hstep (fun pt op h hop => ?_) ⟨[], hinit⟩ hnonneg
    obtain ⟨l, hl⟩ := h
    refine ⟨hl.idx_range hsize hop, fun pid hne => ?_⟩
    rw [(hl.step op).1.find_eq, hl.find_eq, listFind_step_of_ne rs l hne]
  · have hmap : HoldsMap rs hashsize (processTableInit hashsize) fun _ => none :=
      ⟨[], hinit, ChainedTable.represents_nil⟩
    exact (Runs.outputs_eq_of_simulation (fun _ _ _ h hguard => h.step hguard) hmap hguarded).1

/-- Four records: the first three share a bucket of a table of size 2, and the first
and the last share their `pid`. -/
def crowdedRecords : Records where
  cell id := { Records.blank with pid := [5, 7, 9, 5].getD id 0 }
  live := {0, 1, 2, 3}
  next := 4

/-- A `pid` is added twice, and its records leave in the order in which they came. -/
def crowdedHistory : List TableOp :=
  [.findPid 5, .delPid 5, .add 0, .add 1, .add 3, .findPid 5, .delPid 5, .findPid 5, .findPid 7,
    .delPid 5, .delPid 5]

/-- Records are added when none was found, and one comes back. -/
def guardedHistory : List TableOp := [.add 0, .add 1, .delPid 5, .findPid 7, .add 3, .findPid 5]

theorem outputs_tableStep_crowded :
    Runs.outputs (tableStep crowdedRecords) (processTableInit 2) crowdedHistory =
        Runs.outputs (listStep crowdedRecords) [] crowdedHistory ∧
      Runs.outputs (tableStep crowdedRecords) (processTableInit 2) guardedHistory =
        Runs.outputs (mapStep crowdedRecords) (fun _ => none) guardedHistory := by
  have hguarded : Runs.Along (Runs.mute (tableStep crowdedRecords)) (Guarded crowdedRecords)
      (processTableInit 2) guardedHistory := by
    decide
  exact ⟨(outputs_tableStep crowdedRecords (by decide) crowdedHistory (by decide)).1,
    (outputs_tableStep crowdedRecords (by decide) guardedHistory (by decide)).2.2 hguarded⟩

end CpuLimit
