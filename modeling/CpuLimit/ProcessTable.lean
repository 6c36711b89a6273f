import CpuLimit.Basic
import CpuLimit.Library.ChainedTable
import Mathlib.Data.Finset.Insert

/-!
# The process table

`process_table.c` over an explicit heap of process records. A record is named
by its address, because the table and the member list of a group share it: a
write through one is seen through the other. A `struct list` appears as the
sequence of its data pointers and a node as its position in that sequence. The
lists of the table are keyed by the leading `sizeof(pid_t)` bytes of a record,
which are its `pid`.
-/
namespace CpuLimit

open Library

/-- The address of a record allocated by `process_dup`. -/
abbrev RecordId := ℕ

/-- The heap of process records: contents, addresses allocated and not freed,
and the next fresh address. -/
structure Records where
  cell : RecordId → Process
  live : Finset RecordId
  next : RecordId

namespace Records

/-- A record whose fields are not initialised; nothing reads them. -/
def blank : Process := ⟨0, 0, 0, 0, []⟩

def empty : Records := ⟨fun _ => blank, ∅, 0⟩

/-- The key that the lists compare. -/
def pidOf (rs : Records) (id : RecordId) : Pid := (rs.cell id).pid

/-- `process_dup`: allocate a record and copy the descriptor into it. -/
def processDup (rs : Records) (proc : Process) : Records × RecordId :=
  (⟨Function.update rs.cell rs.next proc, insert rs.next rs.live, rs.next + 1⟩, rs.next)

/-- Assignment to the fields of a record through its address. -/
def write (rs : Records) (id : RecordId) (proc : Process) : Records :=
  { rs with cell := Function.update rs.cell id proc }

@[simp] theorem processDup_id (rs : Records) (proc : Process) :
    (rs.processDup proc).2 = rs.next := rfl

@[simp] theorem processDup_next (rs : Records) (proc : Process) :
    (rs.processDup proc).1.next = rs.next + 1 := rfl

@[simp] theorem processDup_cell (rs : Records) (proc : Process) (id : RecordId) :
    (rs.processDup proc).1.cell id = if id = rs.next then proc else rs.cell id := by
  simp [processDup, Function.update_apply]

@[simp] theorem write_next (rs : Records) (id : RecordId) (proc : Process) :
    (rs.write id proc).next = rs.next := rfl

@[simp] theorem write_cell (rs : Records) (id id' : RecordId) (proc : Process) :
    (rs.write id proc).cell id' = if id' = id then proc else rs.cell id' := by
  simp [write, Function.update_apply]

theorem pidOf_processDup_of_lt (rs : Records) (proc : Process) {id : RecordId}
    (h : id < rs.next) : (rs.processDup proc).1.pidOf id = rs.pidOf id := by
  simp [pidOf, h.ne]

/-- A write that keeps the `pid` of its record is invisible to the lists. -/
theorem pidOf_write (rs : Records) (id id' : RecordId) (proc : Process)
    (h : proc.pid = rs.pidOf id) : (rs.write id proc).pidOf id' = rs.pidOf id' := by
  by_cases he : id' = id
  · subst he; simp [pidOf, h]
  · simp [pidOf, he]

end Records

/-- `struct process_table`. An unallocated bucket is the `NULL` left by `calloc`. -/
structure ProcessTable where
  table : ChainedTable.Table ℤ RecordId
  hashsize : ℤ

def processTableInit (hashsize : ℤ) : ProcessTable := ⟨ChainedTable.empty, hashsize⟩

/-- The C remainder of the hash function. -/
def hashPid (hashsize : ℤ) (pid : Pid) : ℤ := pid.tmod hashsize

def procHash (pt : ProcessTable) (p : Process) : ℤ := hashPid pt.hashsize p.pid

/-- `locate_node`: the position of the first node whose data has the key of `elem`. -/
def locateNode (rs : Records) (l : List RecordId) (elem : Process) : Option ℕ :=
  l.findIdx? fun id => rs.pidOf id = elem.pid

/-- `locate_elem`: the data of that node. -/
def locateElem (rs : Records) (l : List RecordId) (elem : Process) : Option RecordId :=
  l.find? fun id => rs.pidOf id = elem.pid

/-- `add_elem`. -/
def addElem (l : List RecordId) (elem : RecordId) : List RecordId := l ++ [elem]

/-- `delete_node`, for the node at a position of the list. -/
def deleteNode (l : List RecordId) (node : ℕ) : List RecordId := l.eraseIdx node

def processTableFind (rs : Records) (pt : ProcessTable) (p : Process) : Option RecordId :=
  match pt.table (procHash pt p) with
  | none => none
  | some l => locateElem rs l p

/-- The search record of the `_pid` variants has only its `pid` set. -/
def processTableFindPid (rs : Records) (pt : ProcessTable) (pid : Pid) : Option RecordId :=
  processTableFind rs pt { Records.blank with pid := pid }

/-- The bucket is allocated when the first record hashes to it. -/
def processTableAdd (rs : Records) (pt : ProcessTable) (p : RecordId) : ProcessTable :=
  let idx := procHash pt (rs.cell p)
  match pt.table idx with
  | none => { pt with table := Function.update pt.table idx (some (addElem [] p)) }
  | some l => { pt with table := Function.update pt.table idx (some (addElem l p)) }

/-- The result is 0 when a record was deleted and 1 when there was none. The
record itself is not freed. -/
def processTableDel (rs : Records) (pt : ProcessTable) (p : Process) : ℤ × ProcessTable :=
  let idx := procHash pt p
  match pt.table idx with
  | none => (1, pt)
  | some l =>
    match locateNode rs l p with
    | none => (1, pt)
    | some node => (0, { pt with table := Function.update pt.table idx (some (deleteNode l node)) })

def processTableDelPid (rs : Records) (pt : ProcessTable) (pid : Pid) : ℤ × ProcessTable :=
  processTableDel rs pt { Records.blank with pid := pid }

section Refinement

variable (rs : Records) (pt : ProcessTable)

theorem processTableFind_eq (p : Process) :
    processTableFind rs pt p = ChainedTable.find rs.pidOf pt.table (procHash pt p) p.pid := by
  unfold processTableFind ChainedTable.find ChainedTable.bucket
  cases pt.table (procHash pt p) <;> rfl

theorem processTableFindPid_eq (pid : Pid) :
    processTableFindPid rs pt pid =
      ChainedTable.find rs.pidOf pt.table (hashPid pt.hashsize pid) pid :=
  processTableFind_eq rs pt _

theorem processTableFind_eq_findPid (p : Process) :
    processTableFind rs pt p = processTableFindPid rs pt p.pid := by
  rw [processTableFind_eq, processTableFindPid_eq, procHash]

theorem processTableAdd_table (p : RecordId) :
    (processTableAdd rs pt p).table =
      ChainedTable.add pt.table (hashPid pt.hashsize (rs.pidOf p)) p := by
  unfold processTableAdd ChainedTable.add ChainedTable.bucket addElem
  simp only [procHash, Records.pidOf]
  cases pt.table (hashPid pt.hashsize (rs.cell p).pid) <;> rfl

@[simp] theorem processTableAdd_hashsize (p : RecordId) :
    (processTableAdd rs pt p).hashsize = pt.hashsize := by
  unfold processTableAdd
  dsimp only
  split <;> rfl

/-- Removing the located node is removing the first record with the key. -/
theorem processTableDelPid_table (pid : Pid) :
    (processTableDelPid rs pt pid).2.table =
      ChainedTable.del rs.pidOf pt.table (hashPid pt.hashsize pid) pid := by
  unfold processTableDelPid processTableDel ChainedTable.del procHash locateNode
  cases ht : pt.table (hashPid pt.hashsize pid) with
  | none => simp [ht]
  | some l =>
    cases hf : l.findIdx? fun id => rs.pidOf id = pid with
    | none =>
      have hnone : ∀ id ∈ l, ¬ rs.pidOf id = pid := by simpa using hf
      have hl : (l.eraseP fun id => rs.pidOf id = pid) = l := by simpa using hnone
      simp [ht, hf, hl]
    | some node => simp [ht, hf, deleteNode, List.eraseP_eq_eraseIdx]

@[simp] theorem processTableDelPid_hashsize (pid : Pid) :
    (processTableDelPid rs pt pid).2.hashsize = pt.hashsize := by
  unfold processTableDelPid processTableDel
  dsimp only
  split
  · rfl
  · split <;> rfl

end Refinement

/-- The table invariant: chains agree with the hash function and hold no `pid`
twice, and every stored address was allocated and names a positive `pid`. -/
structure TableOk (rs : Records) (pt : ProcessTable) : Prop where
  hash_pos : 0 < pt.hashsize
  placed : ChainedTable.WellPlaced rs.pidOf (hashPid pt.hashsize) pt.table
  allocated : ∀ id, ChainedTable.Stored pt.table id → id < rs.next
  pid_pos : ∀ id, ChainedTable.Stored pt.table id → 0 < rs.pidOf id

theorem tableOk_init {hashsize : ℤ} (h : 0 < hashsize) (rs : Records) :
    TableOk rs (processTableInit hashsize) where
  hash_pos := h
  placed := ChainedTable.wellPlaced_empty
  allocated := by simp [ChainedTable.Stored, processTableInit]
  pid_pos := by simp [ChainedTable.Stored, processTableInit]

namespace TableOk

variable {rs : Records} {pt : ProcessTable}

theorem findPid_eq_some_iff (h : TableOk rs pt) (pid : Pid) (id : RecordId) :
    processTableFindPid rs pt pid = some id ↔
      ChainedTable.Stored pt.table id ∧ rs.pidOf id = pid := by
  rw [processTableFindPid_eq, h.placed.find_eq_some_iff]

/-- A write that keeps the `pid` changes no table result. -/
theorem write (h : TableOk rs pt) (id : RecordId) (proc : Process)
    (hp : proc.pid = rs.pidOf id) : TableOk (rs.write id proc) pt where
  hash_pos := h.hash_pos
  placed := h.placed.congr fun r _ => (rs.pidOf_write id r proc hp).symm
  allocated := h.allocated
  pid_pos r hr := by rw [rs.pidOf_write id r proc hp]; exact h.pid_pos r hr

theorem findPid_write (id : RecordId) (proc : Process) (hp : proc.pid = rs.pidOf id)
    (pid : Pid) :
    processTableFindPid (rs.write id proc) pt pid = processTableFindPid rs pt pid := by
  rw [processTableFindPid_eq, processTableFindPid_eq]
  exact ChainedTable.find_congr _ fun r _ => rs.pidOf_write id r proc hp

section Add

variable (proc : Process)

/-- The table after `process_dup` is the table before, seen through a heap with
one more cell. -/
theorem processDup (h : TableOk rs pt) : TableOk (rs.processDup proc).1 pt where
  hash_pos := h.hash_pos
  placed := h.placed.congr fun r hr =>
    (rs.pidOf_processDup_of_lt proc (h.allocated r hr)).symm
  allocated r hr := Nat.lt_succ_of_lt (h.allocated r hr)
  pid_pos r hr := by
    rw [rs.pidOf_processDup_of_lt proc (h.allocated r hr)]
    exact h.pid_pos r hr

theorem findPid_processDup (h : TableOk rs pt) (pid : Pid) :
    processTableFindPid (rs.processDup proc).1 pt pid = processTableFindPid rs pt pid := by
  rw [processTableFindPid_eq, processTableFindPid_eq]
  exact ChainedTable.find_congr _ fun r hr =>
    rs.pidOf_processDup_of_lt proc (h.allocated r ⟨_, hr⟩)

theorem pidOf_processDup_next (rs : Records) (proc : Process) :
    (rs.processDup proc).1.pidOf rs.next = proc.pid := by
  simp [Records.pidOf]

/-- The chain of a `pid` that was not found has no record of it after `process_dup` either. -/
theorem find_processDup_next (h : TableOk rs pt)
    (hn : processTableFindPid rs pt proc.pid = none) :
    ChainedTable.find (rs.processDup proc).1.pidOf pt.table
      (hashPid pt.hashsize ((rs.processDup proc).1.pidOf rs.next))
      ((rs.processDup proc).1.pidOf rs.next) = none := by
  rw [pidOf_processDup_next, ← processTableFindPid_eq, h.findPid_processDup, hn]

/-- Adding a freshly duplicated descriptor whose `pid` was not found. -/
theorem add (h : TableOk rs pt) (hpos : 0 < proc.pid)
    (hn : processTableFindPid rs pt proc.pid = none) :
    TableOk (rs.processDup proc).1 (processTableAdd (rs.processDup proc).1 pt rs.next) := by
  have hd : TableOk (rs.processDup proc).1 pt := h.processDup proc
  refine ⟨by simpa using hd.hash_pos, ?_, ?_, ?_⟩
  · rw [processTableAdd_table, processTableAdd_hashsize]
    exact hd.placed.add (h.find_processDup_next proc hn)
  · intro r hr
    rw [processTableAdd_table, ChainedTable.stored_add] at hr
    rcases hr with rfl | hr
    · exact Nat.lt_succ_self _
    · exact hd.allocated r hr
  · intro r hr
    rw [processTableAdd_table, ChainedTable.stored_add] at hr
    rcases hr with rfl | hr
    · rw [pidOf_processDup_next]; exact hpos
    · exact hd.pid_pos r hr

theorem findPid_add (h : TableOk rs pt) (hn : processTableFindPid rs pt proc.pid = none)
    (pid : Pid) :
    processTableFindPid (rs.processDup proc).1
        (processTableAdd (rs.processDup proc).1 pt rs.next) pid =
      if proc.pid = pid then some rs.next else processTableFindPid rs pt pid := by
  rw [processTableFindPid_eq, processTableAdd_table, processTableAdd_hashsize,
    (h.processDup proc).placed.find_add (h.find_processDup_next proc hn), pidOf_processDup_next,
    ← processTableFindPid_eq, h.findPid_processDup]

end Add

theorem del (h : TableOk rs pt) (pid : Pid) : TableOk rs (processTableDelPid rs pt pid).2 where
  hash_pos := by simpa using h.hash_pos
  placed := by
    rw [processTableDelPid_table, processTableDelPid_hashsize]
    exact h.placed.del _ pid
  allocated r hr := by
    rw [processTableDelPid_table] at hr
    exact h.allocated r (ChainedTable.stored_of_del _ hr)
  pid_pos r hr := by
    rw [processTableDelPid_table] at hr
    exact h.pid_pos r (ChainedTable.stored_of_del _ hr)

theorem findPid_del (h : TableOk rs pt) (pid pid' : Pid) :
    processTableFindPid rs (processTableDelPid rs pt pid).2 pid' =
      if pid = pid' then none else processTableFindPid rs pt pid' := by
  rw [processTableFindPid_eq, processTableDelPid_table, processTableDelPid_hashsize,
    h.placed.find_del, ← processTableFindPid_eq]

/-- A positive `pid` hashes to its residue, which is a valid bucket index. -/
theorem hashPid_eq (h : TableOk rs pt) {pid : Pid} (hp : 0 < pid) :
    hashPid pt.hashsize pid = pid % pt.hashsize ∧
      0 ≤ hashPid pt.hashsize pid ∧ hashPid pt.hashsize pid < pt.hashsize := by
  have he : hashPid pt.hashsize pid = pid % pt.hashsize := Int.tmod_eq_emod_of_nonneg hp.le
  refine ⟨he, ?_, ?_⟩
  · rw [he]; exact Int.emod_nonneg _ h.hash_pos.ne'
  · rw [he]; exact Int.emod_lt_of_pos _ h.hash_pos

end TableOk

end CpuLimit
