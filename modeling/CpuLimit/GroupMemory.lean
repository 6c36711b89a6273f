import CpuLimit.GroupHeap
import CpuLimit.RecordOwnership
import CpuLimit.Limiter
import CpuLimit.Library.Outcome

/-!
# The process group in memory

The operations of process_group.c and process_table.c on the lists of a group, from
`init_process_group` to `close_process_group`. `malloc` returns any address that is not
in use, or ends the program. Each operation goes side by side with the one on sequences
of data pointers, and touches no node that is not the group's own.
-/
namespace CpuLimit

open Library
open Library.LinkedList (Heap Segment addresses)

variable {A : Type}

/-- `sizeof(pid_t)`, the key size of the lists. -/
def sizeofPid : ℤ := 4

/-- Allocations other than list nodes; where they lie plays no role. -/
inductive Block
  | processTable
  | buckets
  | list
  | process
  | scratch
  deriving DecidableEq

/-- The answers of `malloc` during one operation. -/
structure Allocator (A : Type) where
  node : Heap A (Option RecordId) → Option A
  granted : Block → HeapGroup A → Bool
  unused : ∀ heap a, node heap = some a → heap a = none

/-- `struct process_group`. -/
structure MemoryGroup (A : Type) where
  lists : HeapGroup A
  targetPid : Pid
  includeChildren : Bool
  lastUpdate : Timespec

/-! ## The operations -/

namespace HeapGroup

/-- `locate_elem`: the data of the node that `locate_node` finds. -/
def locateElem (rs : Records) (pid : Pid) (heap : Heap A (Option RecordId)) (fuel : ℕ)
    (first : Option A) : Option (Option RecordId) :=
  (locateNode rs pid heap fuel first).bind fun found =>
    match found with
    | none => some none
    | some node => (heap node).map LinkedList.Node.data

def processTableFind (h : HeapGroup A) (p : Process) : Option (Option RecordId) :=
  let idx := hashPid h.hashsize p.pid
  if 0 ≤ idx ∧ idx < h.hashsize then
    match h.store.lists (.bucket idx) with
    | none => some none
    | some l => locateElem h.records p.pid h.store.heap (l.count.toNat + 1) l.first
  else none

/-- The loop `for (node = l->first; node != NULL; node = node->next)`: the data that it
passes. -/
def walk (heap : Heap A (Option RecordId)) : ℕ → Option A → Option (List RecordId)
  | 0, _ => none
  | _ + 1, none => some []
  | fuel + 1, some node =>
    (heap node).bind fun this => this.data.bind fun proc =>
      (walk heap fuel this.next).map fun rest => proc :: rest

/-- The same over the member list. -/
def members (h : HeapGroup A) : Option (List RecordId) :=
  (h.store.lists .proclist).bind fun l => walk h.store.heap (l.count.toNat + 1) l.first

/-- `init_list`. -/
def initList (h : HeapGroup A) (i : GroupList) : HeapGroup A :=
  { h with store :=
    { h.store with
      lists := Function.update h.store.lists i (some (StructList.initList sizeofPid)) } }

variable [DecidableEq A]

/-- `add_elem`. -/
def addElem (alloc : Allocator A) (h : HeapGroup A) (i : GroupList) (elem : RecordId) :
    Outcome Unit (HeapGroup A) := do
  let newnode ← Outcome.orExit (alloc.node h.store.heap)
  let store ← Outcome.orFault () <|
    h.store.modify i fun heap l => l.addElem heap newnode (some elem)
  return { h with store := store }

def processTableAdd (alloc : Allocator A) (h : HeapGroup A) (p : RecordId) :
    Outcome Unit (HeapGroup A) :=
  let idx := hashPid h.hashsize (h.records.pidOf p)
  if 0 ≤ idx ∧ idx < h.hashsize then
    match h.store.lists (.bucket idx) with
    | none =>
      if alloc.granted .list h then addElem alloc (h.initList (.bucket idx)) (.bucket idx) p
      else .exited
    | some _ => addElem alloc h (.bucket idx) p
  else .faulted ()

/-- One turn of the loop of `update_process_group`. -/
def updateStep (alloc : Allocator A) (dt : ℚ) (h : HeapGroup A) (tmp : Process) :
    Outcome Unit (HeapGroup A) := do
  let found ← Outcome.orFault () (h.processTableFind tmp)
  match found with
  | none =>
    if alloc.granted .process h then
      let dup := h.records.processDup (newcomer tmp)
      let h ← processTableAdd alloc { h with records := dup.1 } dup.2
      addElem alloc h .proclist dup.2
    else .exited
  | some p =>
    let h ← addElem alloc h .proclist p
    if dt < minDt then return h
    else return { h with records := h.records.write p (refresh dt tmp (h.records.cell p)) }

/-- `clear_list` and `init_list` on the member list. -/
def clearMembers (h : HeapGroup A) : Option (HeapGroup A) :=
  (h.store.modify .proclist fun heap l => (l.clearList heap).map fun r => (r.1, r.2.1)).map
    fun store => initList { h with store := store } .proclist

/-- The nodes of a list are freed, and then its `struct list`; a table also frees the
records of its nodes. -/
def freeList (freeData : Bool) (i : GroupList) (h : HeapGroup A) : Option (HeapGroup A) :=
  match h.store.lists i with
  | none => some h
  | some l =>
    (l.emptied freeData h.store.heap).bind fun r =>
      (h.records.destroyList r.2.2).map fun records =>
        { h with
          records := records
          store := ⟨r.1, Function.update h.store.lists i none⟩ }

def processTableDestroy (h : HeapGroup A) : Option (HeapGroup A) :=
  ((List.range h.hashsize.toNat).map Int.ofNat).foldlM
    (fun h idx => h.freeList true (.bucket idx)) h

def closeProcessGroup (h : HeapGroup A) : Option (HeapGroup A) :=
  (h.freeList false .proclist).bind processTableDestroy

/-- Nothing is allocated yet. -/
def unallocated (heap : Heap A (Option RecordId)) (hashsize : ℤ) : HeapGroup A :=
  ⟨Records.empty, hashsize, ⟨heap, fun _ => none⟩⟩

end HeapGroup

namespace MemoryGroup

variable [DecidableEq A]

/-- The end of `update_process_group`. -/
def stamp (now : Timespec) (m : MemoryGroup A) : MemoryGroup A :=
  if timediffInMs now m.lastUpdate < minDt then m else { m with lastUpdate := now }

def updateProcessGroup (alloc : Allocator A) (now : Timespec) (yielded : List Process)
    (m : MemoryGroup A) : Outcome Unit (MemoryGroup A) :=
  if alloc.granted .scratch m.lists then do
    let dt := timediffInMs now m.lastUpdate
    let h ← Outcome.orFault () m.lists.clearMembers
    let h ← yielded.foldlM (HeapGroup.updateStep alloc dt) h
    return stamp now { m with lists := h }
  else .exited

/-- `init_process_group` on a heap that others use as well. -/
def initProcessGroup (alloc : Allocator A) (heap : Heap A (Option RecordId)) (target : Pid)
    (includeChildren : Bool) (start now : Timespec) (yielded : List Process) :
    Outcome Unit (MemoryGroup A) :=
  let h := HeapGroup.unallocated heap 2048
  if alloc.granted .processTable h && alloc.granted .buckets h && alloc.granted .list h then
    updateProcessGroup alloc now yielded
      ⟨h.initList .proclist, target, includeChildren, start⟩
  else .exited

end MemoryGroup

/-! ## The simulation -/

/-- The lists of `h` are those of `g`, and `heap` is what the nodes of `h` were taken
from. -/
def HeapGroup.Mirrors (heap : Heap A (Option RecordId)) (h : HeapGroup A) (g : ProcessGroup) :
    Prop :=
  ∃ r, Image h r g ∧ Confined (fun _ => none) r heap h.store.heap

namespace Image

variable {h : HeapGroup A} {r : Sequences GroupList A RecordId} {g : ProcessGroup}
  {i : GroupList} {l : List (Option RecordId)}

theorem exists_of_listData (him : Image h r g) (hl : g.listData i = some l) :
    ∃ nodes, r i = some nodes ∧ nodes.map Prod.snd = l := by
  cases hr : r i with
  | none =>
    rw [him.listData_of_none hr] at hl
    cases hl
  | some nodes =>
    rw [him.listData_of_some hr] at hl
    exact ⟨nodes, rfl, Option.some.inj hl⟩

theorem eq_none_of_listData (him : Image h r g) (hl : g.listData i = none) : r i = none := by
  cases hr : r i with
  | none => rfl
  | some nodes =>
    rw [him.listData_of_some hr] at hl
    cases hl

end Image

namespace HeapGroup

variable {heap : Heap A (Option RecordId)} {h : HeapGroup A} {g g' : ProcessGroup}
  {i : GroupList}

/-- The walk passes the data of the nodes. -/
theorem walk_eq {heap : Heap A (Option RecordId)} {p : Option A}
    {nodes : List (A × Option RecordId)} {ids : List RecordId} (h : Segment heap p nodes none)
    (hdata : nodes.map Prod.snd = ids.map some) {fuel : ℕ} (hfuel : nodes.length < fuel) :
    walk heap fuel (LinkedList.first nodes) = some ids := by
  induction nodes generalizing p fuel ids with
  | nil =>
    cases fuel with
    | zero => cases hfuel
    | succ fuel =>
      obtain rfl : ids = [] := List.map_eq_nil_iff.mp hdata.symm
      rfl
  | cons node nodes ih =>
    obtain ⟨a, x⟩ := node
    cases fuel with
    | zero => cases hfuel
    | succ fuel =>
      cases ids with
      | nil => cases hdata
      | cons id ids =>
        obtain ⟨rfl, hrest⟩ := List.cons.inj hdata
        have hcell := h.1
        rw [Option.or_none] at hcell
        rw [LinkedList.first_cons, walk, hcell, Option.bind_some, Option.bind_some,
          ih h.2 hrest (Nat.lt_of_succ_lt_succ hfuel), Option.map_some]

/-- The data of the first node with the key. -/
theorem locateElem_eq {heap : Heap A (Option RecordId)} {p : Option A}
    {nodes : List (A × Option RecordId)} {ids : List RecordId} (h : Segment heap p nodes none)
    (rs : Records) (pid : Pid) (hdata : nodes.map Prod.snd = ids.map some) {fuel : ℕ}
    (hfuel : nodes.length < fuel) :
    locateElem rs pid heap fuel (LinkedList.first nodes) =
      some (ids.find? fun id => rs.pidOf id = pid) := by
  have hsome : ∀ node ∈ nodes, node.2.isSome := by
    intro node hnode
    have hmem : node.2 ∈ ids.map some := hdata ▸ List.mem_map_of_mem hnode
    obtain ⟨id, -, hid⟩ := List.mem_map.mp hmem
    rw [← hid, Option.isSome_some]
  have hfind : (nodes.find? fun node => node.2.map rs.pidOf = some pid).map Prod.snd =
      (ids.find? fun id => rs.pidOf id = pid).map some := by
    have hmap := congrArg (List.find? fun x : Option RecordId => x.map rs.pidOf = some pid) hdata
    rw [List.find?_map, List.find?_map] at hmap
    simpa [Function.comp_def] using hmap
  rw [locateElem, locateNode_eq h rs pid hsome hfuel, Option.bind_some]
  cases hnode : nodes.find? fun node => node.2.map rs.pidOf = some pid with
  | none =>
    rw [hnode] at hfind
    exact congrArg some (Option.map_eq_none_iff.mp hfind.symm).symm
  | some node =>
    rw [hnode, Option.map_some] at hfind
    have hcell := h.data_eq (List.mem_of_find?_eq_some hnode)
    obtain ⟨id, hid, he⟩ := Option.map_eq_some_iff.mp hfind.symm
    rw [hid, he, ← hcell]
    rfl

namespace Mirrors

theorem exists_proclist (hm : Mirrors heap h g) :
    ∃ l, h.store.lists .proclist = some l ∧ l.count = g.proclist.length ∧
      walk h.store.heap (l.count.toNat + 1) l.first = some g.proclist := by
  obtain ⟨r, him, -⟩ := hm
  obtain ⟨nodes, hr, hdata⟩ := him.exists_of_listData (i := .proclist) rfl
  obtain ⟨l, hl, hwf⟩ := him.represents.wellFormed _ _ hr
  have hlength : nodes.length = g.proclist.length := by
    simpa using congrArg List.length hdata
  refine ⟨l, hl, by rw [hwf.count_eq, hlength], ?_⟩
  rw [hwf.first_eq]
  refine walk_eq hwf.links hdata ?_
  rw [hwf.count_eq, Int.toNat_natCast]
  exact Nat.lt_succ_self _

theorem members_eq (hm : Mirrors heap h g) : h.members = some g.proclist := by
  obtain ⟨l, hl, -, hwalk⟩ := hm.exists_proclist
  rw [members, hl, Option.bind_some, hwalk]

/-- Only the records change. -/
theorem records (hm : Mirrors heap h g) (rs : Records) :
    Mirrors heap { h with records := rs } { g with records := rs } := by
  obtain ⟨r, him, hconfined⟩ := hm
  refine ⟨r, ⟨him.represents, him.unallocated, fun j => ?_, rfl, him.hashsize_eq⟩, hconfined⟩
  rw [him.data_eq]
  cases j <;> rfl

/-- The lookup is the one in the table of sequences. -/
theorem processTableFind_eq (hm : Mirrors heap h g) (ht : TableOk g.records g.proctable)
    {p : Process} (hpos : 0 < p.pid) :
    h.processTableFind p = some (CpuLimit.processTableFind g.records g.proctable p) := by
  obtain ⟨r, him, -⟩ := hm
  obtain ⟨-, hrange⟩ := ht.hashPid_eq hpos
  rw [processTableFind, CpuLimit.processTableFind, procHash, him.hashsize_eq, if_pos hrange]
  cases htable : g.proctable.table (hashPid g.proctable.hashsize p.pid) with
  | none =>
    have hdata : g.listData (.bucket (hashPid g.proctable.hashsize p.pid)) = none := by
      rw [ProcessGroup.listData, htable, Option.map_none]
    rw [him.unallocated _ (him.eq_none_of_listData hdata)]
  | some ids =>
    have hdata : g.listData (.bucket (hashPid g.proctable.hashsize p.pid)) =
        some (ids.map some) := by
      rw [ProcessGroup.listData, htable, Option.map_some]
    obtain ⟨nodes, hr, hnodes⟩ := him.exists_of_listData hdata
    obtain ⟨l, hl, hwf⟩ := him.represents.wellFormed _ _ hr
    have hfuel : nodes.length < l.count.toNat + 1 := by
      rw [hwf.count_eq, Int.toNat_natCast]
      exact Nat.lt_succ_self _
    rw [hl]
    dsimp only
    rw [hwf.first_eq, locateElem_eq hwf.links h.records p.pid hnodes hfuel, him.records_eq]
    rfl

/-- `init_list` on a list that is not initialised or empty. -/
theorem initList (hm : Mirrors heap h g) (hl : ∀ l ∈ g.listData i, l = [])
    (hself : g'.listData i = some []) (hother : ∀ j, j ≠ i → g'.listData j = g.listData j)
    (hrecords : g'.records = g.records)
    (hhashsize : g'.proctable.hashsize = g.proctable.hashsize) :
    Mirrors heap (h.initList i) g' := by
  obtain ⟨r, him, hconfined⟩ := hm
  have hnodes : r.nodes i = [] := by
    cases hr : r i with
    | none => rw [Sequences.nodes, hr, Option.getD_none]
    | some nodes =>
      have hnil := hl _ (him.listData_of_some hr)
      rw [Sequences.nodes_of_some hr]
      exact List.map_eq_nil_iff.mp hnil
  obtain ⟨hrep, hsame⟩ := him.represents.replace (i := i)
    (StructList.WellFormed.initList h.store.heap sizeofPid) (by simp) fun _ _ _ => rfl
  refine ⟨Function.update r i (some []), him.replace hrep (fun j hj => (hsame j hj).1) hself hother
    (him.records_eq.trans hrecords.symm) (him.hashsize_eq.trans hhashsize.symm),
    hconfined.trans (.update hnodes (fun _ _ _ => rfl) (by simp) (by simp))⟩

variable [DecidableEq A]

/-- `add_elem` appends to the data of its list. -/
theorem addElem (alloc : Allocator A) (hm : Mirrors heap h g) {l : List (Option RecordId)}
    {elem : RecordId} (hl : g.listData i = some l)
    (hself : g'.listData i = some (l ++ [some elem]))
    (hother : ∀ j, j ≠ i → g'.listData j = g.listData j) (hrecords : g'.records = g.records)
    (hhashsize : g'.proctable.hashsize = g.proctable.hashsize) :
    (h.addElem alloc i elem).Delivers fun h' => Mirrors heap h' g' := by
  obtain ⟨r, him, hconfined⟩ := hm
  obtain ⟨nodes, hr, rfl⟩ := him.exists_of_listData hl
  refine (Outcome.delivers_orExit fun a ha => alloc.unused _ _ ha).bind fun a ha => ?_
  obtain ⟨store, hstore, hrep, hsame, hconfined'⟩ :=
    him.represents.addElem (i := i) (by rw [hr]; rfl) ha (some elem)
  rw [Sequences.nodes_of_some hr] at hrep hconfined'
  have hdata : g'.listData i = some ((nodes ++ [(a, some elem)]).map Prod.snd) := by
    rw [hself, List.map_append]
    rfl
  have him' : Image { h with store := store }
      (Function.update r i (some (nodes ++ [(a, some elem)]))) g' :=
    him.replace hrep (fun j hj => (hsame j hj).1) hdata hother
      (him.records_eq.trans hrecords.symm) (him.hashsize_eq.trans hhashsize.symm)
  have hnext : Mirrors heap { h with store := store } g' :=
    ⟨_, him', hconfined.trans hconfined'⟩
  rw [hstore, Outcome.orFault_some, Outcome.returned_bind]
  exact .returned hnext

end Mirrors

end HeapGroup

/-! ## One turn of the update loop -/

namespace ProcessGroup

variable {g : ProcessGroup}

theorem TableSound.updateStep (h : TableSound g) (dt : ℚ) {tmp : Process} (hpos : 0 < tmp.pid) :
    TableSound (g.updateStep dt tmp) := by
  cases hf : processTableFindPid g.records g.proctable tmp.pid with
  | none =>
    rw [updateStep_new dt hf]
    exact h.add (newcomer tmp) hpos hf
  | some p =>
    rw [updateStep_seen dt hf, TableSound]
    dsimp only
    split_ifs
    · exact h
    · exact h.write p _ rfl

/-- A bucket that is allocated and still empty. -/
def allocateBucket (g : ProcessGroup) (idx : ℤ) : ProcessGroup :=
  { g with proctable :=
    { g.proctable with table := Function.update g.proctable.table idx (some []) } }

theorem listData_allocateBucket (g : ProcessGroup) (idx : ℤ) (j : GroupList) :
    (g.allocateBucket idx).listData j = if j = .bucket idx then some [] else g.listData j := by
  cases j with
  | proclist => rfl
  | bucket idx' =>
    simp only [listData, allocateBucket, Function.update_apply]
    by_cases hidx : idx' = idx
    · rw [if_pos hidx, if_pos (congrArg _ hidx)]
      rfl
    · rw [if_neg hidx, if_neg fun he => hidx (GroupList.bucket.inj he)]

/-- The bucket of a record grows by it. -/
theorem listData_processTableAdd (g : ProcessGroup) (p : RecordId) (j : GroupList) :
    ({ g with proctable := processTableAdd g.records g.proctable p } : ProcessGroup).listData j =
      if j = .bucket (hashPid g.proctable.hashsize (g.records.pidOf p)) then
        some ((g.listData j).getD [] ++ [some p])
      else g.listData j := by
  cases j with
  | proclist => rfl
  | bucket idx =>
    rw [listData, processTableAdd_table, ChainedTable.add, Function.update_apply]
    by_cases hidx : idx = hashPid g.proctable.hashsize (g.records.pidOf p)
    · subst hidx
      rw [if_pos rfl, if_pos rfl, listData, ChainedTable.bucket]
      cases g.proctable.table (hashPid g.proctable.hashsize (g.records.pidOf p)) with
      | none => rfl
      | some l => simp
    · rw [if_neg hidx, if_neg fun he => hidx (GroupList.bucket.inj he), listData]

end ProcessGroup

namespace HeapGroup.Mirrors

open ProcessGroup

variable [DecidableEq A] {heap : Heap A (Option RecordId)} {h : HeapGroup A} {g : ProcessGroup}

/-- The record joins its bucket, which is allocated for the first record. -/
theorem processTableAdd (alloc : Allocator A) (hm : Mirrors heap h g) {p : RecordId}
    (hrange : 0 ≤ hashPid g.proctable.hashsize (g.records.pidOf p) ∧
      hashPid g.proctable.hashsize (g.records.pidOf p) < g.proctable.hashsize) :
    (h.processTableAdd alloc p).Delivers fun h' =>
      Mirrors heap h'
        { g with proctable := CpuLimit.processTableAdd g.records g.proctable p } := by
  have hlist := g.listData_processTableAdd p
  have hhashsize := processTableAdd_hashsize g.records g.proctable p
  obtain ⟨r, him, hconfined⟩ := hm
  rw [HeapGroup.processTableAdd, him.hashsize_eq, him.records_eq, if_pos hrange]
  generalize hashPid g.proctable.hashsize (g.records.pidOf p) = idx at hlist
  have hother := fun (j : GroupList) (hj : j ≠ .bucket idx) => (hlist j).trans (if_neg hj)
  cases hr : r (.bucket idx) with
  | none =>
    have hnone := him.listData_of_none hr
    have hself := hlist (.bucket idx)
    rw [if_pos rfl, hnone] at hself
    rw [him.unallocated _ hr]
    by_cases hgranted : alloc.granted .list h = true
    · have hempty := g.listData_allocateBucket idx
      have hself₁ : (g.allocateBucket idx).listData (.bucket idx) = some [] :=
        (hempty _).trans (if_pos rfl)
      have hother₁ := fun (j : GroupList) (hj : j ≠ .bucket idx) =>
        (hempty j).trans (if_neg hj)
      have hm₁ : Mirrors heap (h.initList (.bucket idx)) (g.allocateBucket idx) :=
        initList ⟨r, him, hconfined⟩ (by simp [hnone]) hself₁ hother₁ rfl rfl
      dsimp only
      rw [if_pos hgranted]
      exact addElem alloc hm₁ hself₁ hself
        (fun j hj => (hother j hj).trans (hother₁ j hj).symm) rfl hhashsize
    · dsimp only
      rw [if_neg hgranted]
      exact Outcome.delivers_exited
  | some nodes =>
    have hsome := him.listData_of_some hr
    have hself := hlist (.bucket idx)
    rw [if_pos rfl, hsome, Option.getD_some] at hself
    obtain ⟨l, hl, -⟩ := him.represents.wellFormed _ _ hr
    rw [hl]
    exact addElem alloc ⟨r, him, hconfined⟩ hsome hself hother rfl hhashsize

/-- A record joins the member list. -/
theorem addMember (alloc : Allocator A) (hm : Mirrors heap h g) (p : RecordId) :
    (h.addElem alloc .proclist p).Delivers fun h' =>
      Mirrors heap h' { g with proclist := g.proclist ++ [p] } := by
  refine addElem alloc hm (l := g.proclist.map some) rfl ?_ (fun j hj => ?_) rfl rfl
  · rw [listData, List.map_append]
    rfl
  · cases j with
    | proclist => exact absurd rfl hj
    | bucket idx => rfl

/-- One turn of the update loop, for a new and for a known process. -/
theorem updateStep (alloc : Allocator A) (hm : Mirrors heap h g) (ht : TableSound g) (dt : ℚ)
    {tmp : Process} (hpos : 0 < tmp.pid) :
    (h.updateStep alloc dt tmp).Delivers fun h' => Mirrors heap h' (g.updateStep dt tmp) := by
  have hrecords : h.records = g.records := by
    obtain ⟨r, him, -⟩ := hm
    exact him.records_eq
  have hfound := hm.processTableFind_eq ht hpos
  rw [processTableFind_eq_findPid] at hfound
  rw [HeapGroup.updateStep, hfound, Outcome.orFault_some, Outcome.returned_bind]
  cases hf : processTableFindPid g.records g.proctable tmp.pid with
  | none =>
    dsimp only
    by_cases hgranted : alloc.granted .process h = true
    · have hdup := hm.records (g.records.processDup (newcomer tmp)).1
      have hrange : 0 ≤ hashPid g.proctable.hashsize
            ((g.records.processDup (newcomer tmp)).1.pidOf g.records.next) ∧
          hashPid g.proctable.hashsize
            ((g.records.processDup (newcomer tmp)).1.pidOf g.records.next) <
              g.proctable.hashsize := by
        have hnew : 0 < (newcomer tmp).pid := hpos
        rw [TableOk.pidOf_processDup_next]
        exact (ht.hashPid_eq hnew).2
      rw [if_pos hgranted, hrecords, updateStep_new dt hf]
      exact (processTableAdd alloc hdup hrange).bind fun h₁ hm₁ => addMember alloc hm₁ _
    · rw [if_neg hgranted]
      exact Outcome.delivers_exited
  | some p =>
    rw [updateStep_seen dt hf]
    refine (addMember alloc hm p).bind fun h₁ hm₁ => ?_
    have hrecords₁ : h₁.records = g.records := by
      obtain ⟨r, him, -⟩ := hm₁
      exact him.records_eq
    by_cases hdt : dt < minDt
    · rw [if_pos hdt, if_pos hdt]
      exact .returned hm₁
    · rw [if_neg hdt, if_neg hdt, hrecords₁]
      exact .returned (hm₁.records _)

/-- The whole loop. -/
theorem foldlM_updateStep (alloc : Allocator A) (hm : Mirrors heap h g) (ht : TableSound g)
    (dt : ℚ) {yielded : List Process} (hpos : ∀ tmp ∈ yielded, 0 < tmp.pid) :
    (yielded.foldlM (HeapGroup.updateStep alloc dt) h).Delivers fun h' =>
      Mirrors heap h' (yielded.foldl (ProcessGroup.updateStep dt) g) := by
  induction yielded generalizing h g with
  | nil => exact .returned hm
  | cons tmp rest ih =>
    have htmp := hpos tmp (by simp)
    rw [List.foldlM_cons, List.foldl_cons]
    exact (updateStep alloc hm ht dt htmp).bind fun h₁ hm₁ =>
      ih hm₁ (ht.updateStep dt htmp) fun x hx => hpos x (by simp [hx])

end HeapGroup.Mirrors

/-! ## Whole updates -/

/-- Each variable of `m` is that of `g`. -/
structure MemoryGroup.Mirrors (heap : Heap A (Option RecordId)) (m : MemoryGroup A)
    (g : ProcessGroup) : Prop where
  lists : m.lists.Mirrors heap g
  targetPid_eq : m.targetPid = g.targetPid
  includeChildren_eq : m.includeChildren = g.includeChildren
  lastUpdate_eq : m.lastUpdate = g.lastUpdate

namespace HeapGroup.Mirrors

variable {heap : Heap A (Option RecordId)} {h : HeapGroup A} {g g' : ProcessGroup}

/-- The lists do not depend on the other variables of the group. -/
theorem congr (hm : Mirrors heap h g) (hlist : ∀ j, g'.listData j = g.listData j)
    (hrecords : g'.records = g.records)
    (hhashsize : g'.proctable.hashsize = g.proctable.hashsize) : Mirrors heap h g' := by
  obtain ⟨r, him, hconfined⟩ := hm
  exact ⟨r, ⟨him.represents, him.unallocated, fun j => (him.data_eq j).trans (hlist j).symm,
    him.records_eq.trans hrecords.symm, him.hashsize_eq.trans hhashsize.symm⟩, hconfined⟩

variable [DecidableEq A]

theorem clearMembers (hm : Mirrors heap h g) :
    ∃ h', h.clearMembers = some h' ∧ Mirrors heap h' g.clearMembers := by
  obtain ⟨r, him, hconfined⟩ := hm
  obtain ⟨nodes, hr, -⟩ := him.exists_of_listData (i := .proclist) rfl
  obtain ⟨store, hstore, hrep, hsame, hconfined'⟩ :=
    him.represents.emptied (i := .proclist) false (by rw [hr]; rfl)
  have hother : ∀ j, j ≠ .proclist → g.clearMembers.listData j = g.listData j := by
    intro j hj
    cases j with
    | proclist => exact absurd rfl hj
    | bucket idx => rfl
  have hm₁ : Mirrors heap { h with store := store } g.clearMembers :=
    ⟨_, him.replace hrep (fun j hj => (hsame j hj).1) rfl hother him.records_eq him.hashsize_eq,
      hconfined.trans hconfined'⟩
  refine ⟨_, ?_, hm₁.initList (i := .proclist) ?_ rfl (fun _ _ => rfl) rfl rfl⟩
  · rw [HeapGroup.clearMembers]
    exact congrArg (Option.map _) hstore
  · intro l hl
    exact (Option.some.inj hl).symm

/-- A pass that sends a signal to the members. -/
theorem signalPass (hm : Mirrors heap h g) (hc : ProcessGroup.Coherent g) (signal : Signal)
    (fails : Pid → Bool) {fuel : ℕ} (hfuel : g.proclist.length < fuel) :
    ∃ h', h.signalPass signal fails fuel =
        some (h', g.memberPids.map fun pid => (signal, pid)) ∧
      Mirrors heap h' (g.signalPass fails g.proclist.length 0) := by
  obtain ⟨r, him, hconfined⟩ := hm
  obtain ⟨nodes, hr, hdata⟩ := him.exists_of_listData (i := .proclist) rfl
  obtain ⟨l, hl, hwf⟩ := him.represents.wellFormed _ _ hr
  have hlength : g.proclist.length = nodes.length := by
    simpa using (congrArg List.length hdata).symm
  have hstart : r .proclist = some ([] ++ nodes) := hr
  obtain ⟨h', r', hloop, him', hconfined'⟩ :=
    him.signalLoop_confined signal fails hc hstart (hlength ▸ hfuel)
  rw [← hlength] at him'
  refine ⟨h', ?_, r', him', hconfined.trans hconfined'⟩
  rw [HeapGroup.signalPass, hl, Option.bind_some, hwf.first_eq, hloop]
  rfl

end HeapGroup.Mirrors

theorem ProcessGroup.targetPid_foldl_updateStep (dt : ℚ) (yielded : List Process)
    (g : ProcessGroup) :
    (yielded.foldl (updateStep dt) g).targetPid = g.targetPid ∧
      (yielded.foldl (updateStep dt) g).includeChildren = g.includeChildren := by
  induction yielded generalizing g with
  | nil => exact ⟨rfl, rfl⟩
  | cons tmp rest ih =>
    obtain ⟨ht, hi⟩ := System.targetPid_updateStep dt g tmp
    obtain ⟨ht', hi'⟩ := ih (g.updateStep dt tmp)
    exact ⟨ht'.trans ht, hi'.trans hi⟩

namespace MemoryGroup.Mirrors

open ProcessGroup

variable {heap : Heap A (Option RecordId)} {m : MemoryGroup A} {g : ProcessGroup}

theorem stamp (hm : Mirrors heap m g) (now : Timespec) :
    Mirrors heap (m.stamp now) (g.stamp now) := by
  rw [MemoryGroup.stamp, ProcessGroup.stamp, hm.lastUpdate_eq]
  split_ifs
  · exact hm
  · exact ⟨hm.lists.congr (fun j => by cases j <;> rfl) rfl rfl, hm.targetPid_eq,
      hm.includeChildren_eq, rfl⟩

variable [DecidableEq A]

theorem updateProcessGroup (alloc : Allocator A) (hm : Mirrors heap m g) (ht : TableSound g)
    (now : Timespec) {yielded : List Process} (hpos : ∀ tmp ∈ yielded, 0 < tmp.pid) :
    (m.updateProcessGroup alloc now yielded).Delivers fun m' =>
      Mirrors heap m' (g.update now yielded) := by
  rw [MemoryGroup.updateProcessGroup]
  by_cases hgranted : alloc.granted .scratch m.lists = true
  · have hdt : timediffInMs now m.lastUpdate = timediffInMs now g.lastUpdate := by
      rw [hm.lastUpdate_eq]
    rw [if_pos hgranted, hdt]
    obtain ⟨h, hclear, hm₁⟩ := hm.lists.clearMembers
    have hloop : ∀ h', HeapGroup.Mirrors heap h' g.clearMembers →
        (yielded.foldlM (HeapGroup.updateStep alloc (timediffInMs now g.lastUpdate)) h').Delivers
          fun h'' => HeapGroup.Mirrors heap h'' (yielded.foldl
            (ProcessGroup.updateStep (timediffInMs now g.lastUpdate)) g.clearMembers) :=
      fun h' hm' => hm'.foldlM_updateStep alloc ht _ hpos
    rw [hclear, Outcome.orFault_some, Outcome.returned_bind]
    refine (hloop h hm₁).bind fun h'' hm'' => .returned ?_
    obtain ⟨htarget, hinclude⟩ := targetPid_foldl_updateStep (timediffInMs now g.lastUpdate)
      yielded g.clearMembers
    have hlast := foldl_updateStep_lastUpdate (timediffInMs now g.lastUpdate) yielded
      g.clearMembers
    have hmembers : Mirrors heap { m with lists := h'' } (yielded.foldl
        (ProcessGroup.updateStep (timediffInMs now g.lastUpdate)) g.clearMembers) :=
      ⟨hm'', hm.targetPid_eq.trans htarget.symm, hm.includeChildren_eq.trans hinclude.symm,
        hm.lastUpdate_eq.trans hlast.symm⟩
    exact hmembers.stamp now
  · rw [if_neg hgranted]
    exact Outcome.delivers_exited

theorem signalPass (hm : Mirrors heap m g) (hc : ProcessGroup.Coherent g) (signal : Signal)
    (fails : Pid → Bool) {fuel : ℕ} (hfuel : g.proclist.length < fuel) :
    ∃ h, m.lists.signalPass signal fails fuel =
        some (h, g.memberPids.map fun pid => (signal, pid)) ∧
      Mirrors heap { m with lists := h } (g.signalPass fails g.proclist.length 0) := by
  obtain ⟨h, hpass, hm'⟩ := hm.lists.signalPass hc signal fails hfuel
  have hdrop : ∀ (g' : ProcessGroup) (node : ℕ), (m.targetPid = g'.targetPid ∧
      m.includeChildren = g'.includeChildren ∧ m.lastUpdate = g'.lastUpdate) →
      m.targetPid = (g'.dropMember node).targetPid ∧
        m.includeChildren = (g'.dropMember node).includeChildren ∧
          m.lastUpdate = (g'.dropMember node).lastUpdate := by
    intro g' node h
    rw [System.targetPid_dropMember, System.includeChildren_dropMember, dropMember_lastUpdate]
    exact h
  obtain ⟨htarget, hinclude, hlast⟩ := signalPass_invariant hdrop fails g.proclist.length 0
    ⟨hm.targetPid_eq, hm.includeChildren_eq, hm.lastUpdate_eq⟩
  exact ⟨h, hpass, hm', htarget, hinclude, hlast⟩

omit [DecidableEq A] in
/-- Before the first update the group has an empty member list and no buckets. -/
theorem unallocated (heap : Heap A (Option RecordId)) (target : Pid) (includeChildren : Bool)
    (start : Timespec) :
    Mirrors heap ⟨(HeapGroup.unallocated heap 2048).initList .proclist, target, includeChildren,
      start⟩ (fresh target includeChildren start) := by
  have hrep : (HeapGroup.unallocated heap 2048).store.Represents fun _ => none := .start heap
  obtain ⟨hrep', hsame⟩ := hrep.replace (i := .proclist)
    (StructList.WellFormed.initList heap sizeofPid) (by simp) fun _ _ _ => rfl
  let nothing : Sequences GroupList A RecordId := fun _ => none
  have hnodes : nothing.nodes .proclist = [] := rfl
  refine ⟨⟨_, ⟨hrep', fun j hj => ?_, fun j => ?_, rfl, rfl⟩,
    .update hnodes (fun _ _ _ => rfl) (by simp) (by simp)⟩, rfl, rfl, rfl⟩
  · cases j with
    | proclist => cases hj
    | bucket idx => rfl
  · cases j <;> rfl

theorem initProcessGroup (alloc : Allocator A) (heap : Heap A (Option RecordId)) (target : Pid)
    (includeChildren : Bool) (start now : Timespec) {yielded : List Process}
    (hpos : ∀ tmp ∈ yielded, 0 < tmp.pid) :
    (MemoryGroup.initProcessGroup alloc heap target includeChildren start now yielded).Delivers
      fun m => Mirrors heap m
        (ProcessGroup.initProcessGroup target includeChildren start now yielded) := by
  rw [MemoryGroup.initProcessGroup]
  split_ifs
  · exact (unallocated heap target includeChildren start).updateProcessGroup alloc
      (tableSound_fresh target includeChildren start) now hpos
  · exact Outcome.delivers_exited

end MemoryGroup.Mirrors

/-! ## The end of a group -/

/-- The lists that are initialised are those of `r`. -/
structure ListStore.Exactly {ι D : Type*} (s : ListStore ι A D) (r : Sequences ι A D) : Prop where
  represents : s.Represents r
  unallocated : ∀ i, r i = none → s.lists i = none

/-- A bucket that is allocated has an index of the table. -/
def ProcessGroup.BucketsInRange (g : ProcessGroup) : Prop :=
  ∀ idx, g.proctable.table idx ≠ none → 0 ≤ idx ∧ idx < g.proctable.hashsize

namespace HeapGroup

variable [DecidableEq A] {h : HeapGroup A} {r : Sequences GroupList A RecordId} {rs : Records}

/-- A list of the group goes with its nodes, and with their records if they are freed. -/
theorem freeList_spec (hs : h.store.Exactly r) (freeData : Bool) (i : GroupList)
    (hrs : h.records.destroyList
      (if freeData then (r.nodes i).filterMap Prod.snd else []) = some rs) :
    ∃ h', h.freeList freeData i = some h' ∧ h'.records = rs ∧ h'.hashsize = h.hashsize ∧
      h'.store.Exactly (Function.update r i none) ∧
      Confined r (Function.update r i none) h.store.heap h'.store.heap := by
  cases hr : r i with
  | none =>
    have hnodes : r.nodes i = [] := by rw [Sequences.nodes, hr, Option.getD_none]
    have hsame : Function.update r i none = r := by rw [← hr, Function.update_eq_self]
    rw [hnodes, List.filterMap_nil, ite_self, Records.destroyList] at hrs
    rw [freeList, hs.unallocated i hr, hsame]
    exact ⟨h, rfl, Option.some.inj hrs, rfl, hs, .refl _ _⟩
  | some nodes =>
    obtain ⟨l, hl, hwf⟩ := hs.represents.wellFormed i nodes hr
    obtain ⟨heap', l', hrun, hwf', hfreed, hframe⟩ := hwf.emptied freeData
    have hnodes := Sequences.nodes_of_some hr
    rw [hnodes] at hrs
    obtain ⟨hrep, -⟩ := hs.represents.replace (i := i) hwf' (by simp)
      (fun a ha _ => hframe a (hnodes ▸ ha))
    have hgone := hrep.forget i
    rw [Function.update_idem, Function.update_idem] at hgone
    refine ⟨{ h with
        records := rs
        store := ⟨heap', Function.update h.store.lists i none⟩ }, ?_, rfl, rfl,
      ⟨hgone, fun j hj => ?_⟩,
      .update hnodes (fun a ha _ => hframe a ha) (fun a ha _ => hfreed a ha) (by simp)⟩
    · rw [freeList, hl]
      dsimp only
      rw [hrun, Option.bind_some, hrs, Option.map_some]
    · by_cases hji : j = i
      · rw [hji]
        exact Function.update_self _ _ _
      · rw [Function.update_of_ne hji] at hj
        exact (Function.update_of_ne hji _ _).trans (hs.unallocated j hj)

/-- The loop of `process_table_destroy`. -/
theorem freeBuckets_spec {indices : List ℤ} (hnd : indices.Nodup) (hs : h.store.Exactly r)
    (hrs : h.records.destroyList (indices.flatMap fun idx =>
      (r.nodes (.bucket idx)).filterMap Prod.snd) = some rs) :
    ∃ h' r', indices.foldlM (fun h idx => h.freeList true (.bucket idx)) h = some h' ∧
      h'.records = rs ∧ h'.store.Exactly r' ∧ Confined r r' h.store.heap h'.store.heap ∧
      (∀ idx ∈ indices, r' (.bucket idx) = none) ∧ ∀ j, r j = none → r' j = none := by
  induction indices generalizing h r with
  | nil => exact ⟨h, r, rfl, Option.some.inj hrs, hs, .refl _ _, by simp, fun _ hj => hj⟩
  | cons idx indices ih =>
    obtain ⟨hidx, hnd⟩ := List.nodup_cons.mp hnd
    rw [List.flatMap_cons, Records.destroyList_append, Option.bind_eq_some_iff] at hrs
    obtain ⟨rs₁, hrs₁, hrs⟩ := hrs
    obtain ⟨h₁, hfree, hrecords, -, hs₁, hconfined₁⟩ := freeList_spec hs true (.bucket idx) hrs₁
    have hlater : indices.flatMap (fun idx' => (Sequences.nodes
        (Function.update r (.bucket idx) none) (.bucket idx')).filterMap Prod.snd) =
          indices.flatMap fun idx' => (r.nodes (.bucket idx')).filterMap Prod.snd := by
      refine List.flatMap_congr fun idx' hidx' => ?_
      rw [Sequences.nodes_update, if_neg]
      intro he
      exact hidx (GroupList.bucket.inj he ▸ hidx')
    rw [← hlater, ← hrecords] at hrs
    obtain ⟨h', r', hloop, hrecords', hs', hconfined', hgone, hkept⟩ := ih hnd hs₁ hrs
    refine ⟨h', r', ?_, hrecords', hs', hconfined₁.trans hconfined', fun idx' hidx' => ?_,
      fun j hj => hkept j ?_⟩
    · rw [List.foldlM_cons, hfree]
      exact hloop
    · rcases List.mem_cons.mp hidx' with rfl | hidx'
      · exact hkept _ (Function.update_self _ _ _)
      · exact hgone idx' hidx'
    · by_cases hj' : j = .bucket idx
      · rw [hj', Function.update_self]
      · rw [Function.update_of_ne hj', hj]

/-- `close_process_group` frees all nodes of the group and the records in its table. -/
theorem Mirrors.closeProcessGroup {heap : Heap A (Option RecordId)} {g : ProcessGroup}
    (hm : Mirrors heap h g) (hrange : g.BucketsInRange)
    (hrs : g.closeProcessGroup = some rs) :
    ∃ h', h.closeProcessGroup = some h' ∧ h'.records = rs ∧ h'.store.heap = heap ∧
      ∀ i, h'.store.lists i = none := by
  obtain ⟨r, him, hconfined⟩ := hm
  have hkeep : h.records.destroyList [] = some h.records := rfl
  obtain ⟨h₁, hfree, hrecords, hhashsize, hs₁, hconfined₁⟩ :=
    freeList_spec ⟨him.represents, him.unallocated⟩ false .proclist hkeep
  have hbuckets : ∀ idx, (Sequences.nodes (Function.update r .proclist none)
      (.bucket idx)).filterMap Prod.snd = ChainedTable.bucket g.proctable.table idx := by
    intro idx
    rw [Sequences.nodes_update, if_neg (by simp), ChainedTable.bucket]
    have hdata := him.data_eq (.bucket idx)
    rw [Sequences.data, ProcessGroup.listData] at hdata
    rw [Sequences.nodes]
    cases hr : r (.bucket idx) with
    | none =>
      rw [hr, Option.map_none] at hdata
      rw [Option.map_eq_none_iff.mp hdata.symm]
      rfl
    | some nodes =>
      rw [hr, Option.map_some] at hdata
      obtain ⟨l, hl, hmap⟩ := Option.map_eq_some_iff.mp hdata.symm
      have hfilter := congrArg (List.filterMap id) hmap
      rw [hl, Option.getD_some, Option.getD_some]
      simpa [List.filterMap_map, Function.comp_def] using hfilter.symm
  rw [ProcessGroup.closeProcessGroup_eq, ProcessGroup.tableRecords, ← him.records_eq, ← hrecords,
    ← funext hbuckets] at hrs
  have hnd : ((List.range g.proctable.hashsize.toNat).map Int.ofNat).Nodup :=
    List.nodup_range.map fun _ _ he => Int.ofNat.inj he
  obtain ⟨h', r', hloop, hrecords', hs', hconfined', hgone, hkept⟩ := freeBuckets_spec hnd hs₁ hrs
  have hempty : ∀ i, r' i = none := by
    intro i
    cases i with
    | proclist => exact hkept _ (Function.update_self _ _ _)
    | bucket idx =>
      by_cases hidx : g.proctable.table idx = none
      · refine hkept _ ?_
        rw [Function.update_of_ne (by simp)]
        exact him.eq_none_of_listData (by rw [ProcessGroup.listData, hidx, Option.map_none])
      · obtain ⟨hlo, hhi⟩ := hrange idx hidx
        refine hgone idx (List.mem_map.mpr ⟨idx.toNat, ?_, Int.toNat_of_nonneg hlo⟩)
        rw [List.mem_range]
        omega
  have hnone : ∀ a, ¬ Sequences.Holds r' a := by
    rintro a ⟨i, hi⟩
    simp [Sequences.nodes, hempty] at hi
  refine ⟨h', ?_, hrecords', ?_, fun i => hs'.unallocated i (hempty i)⟩
  · rw [HeapGroup.closeProcessGroup, hfree, Option.bind_some, processTableDestroy, hhashsize,
      him.hashsize_eq]
    exact hloop
  · refine ((hconfined.trans hconfined₁).trans hconfined').heap_eq ?_ hnone
    rintro a ⟨i, hi⟩
    simp [Sequences.nodes] at hi

end HeapGroup

end CpuLimit
