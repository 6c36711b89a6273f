import CpuLimit.LimitProcess
import CpuLimit.ListHistory
import CpuLimit.ProcessIterator

/-!
# The signal passes on linked lists

The group with its lists as they are in memory: the member list and the
allocated buckets of the table are lists of list.c on one heap. A signal pass
walks the member list while it takes nodes out of it and out of the buckets.
`Image` connects such a group to the one whose lists are sequences of data
pointers; the passes of the two go together step by step.
-/
namespace CpuLimit

open Library
open Library.LinkedList (Heap Segment addresses)

variable {A : Type*}

/-- The lists of a group. -/
inductive GroupList
  | proclist
  | bucket (idx : ℤ)
  deriving DecidableEq

/-- A bucket of the table that was never allocated is a list that is not initialised. -/
structure HeapGroup (A : Type*) where
  records : Records
  hashsize : ℤ
  store : ListStore GroupList A RecordId

/-! ## The operations -/

namespace HeapGroup

/-- `locate_node` from the node `tmp` on: the outer option is a fault, the inner one a
null pointer. The key of a node is read through its data pointer. -/
def locateNode (rs : Records) (pid : Pid) (heap : Heap A (Option RecordId)) :
    ℕ → Option A → Option (Option A)
  | 0, _ => none
  | _ + 1, none => some none
  | fuel + 1, some tmp =>
    (heap tmp).bind fun node => node.data.bind fun id =>
      if rs.pidOf id = pid then some (some tmp) else locateNode rs pid heap fuel node.next

variable [DecidableEq A]

/-- An index outside of the table is a fault. -/
def processTableDel (h : HeapGroup A) (p : Process) : Option (ℤ × HeapGroup A) :=
  let idx := hashPid h.hashsize p.pid
  if 0 ≤ idx ∧ idx < h.hashsize then
    match h.store.lists (.bucket idx) with
    | none => some (1, h)
    | some l =>
      (locateNode h.records p.pid h.store.heap (l.count.toNat + 1) l.first).bind fun found =>
        match found with
        | none => some (1, h)
        | some node =>
          (h.store.modify (.bucket idx) fun heap l => l.deleteNode heap node).map fun store =>
            (0, { h with store := store })
  else none

/-- `process_table_del_pid`, where `malloc` grants the record that it searches with. -/
def processTableDelPid (h : HeapGroup A) (pid : Pid) : Option (ℤ × HeapGroup A) :=
  h.processTableDel { Records.blank with pid := pid }

def removeProcess (h : HeapGroup A) (pid : Pid) : Option (ℤ × HeapGroup A) :=
  h.processTableDelPid pid

/-- The loop of a pass from `node` on, with the signals that it sends. The next node is
read before the signal, since a failed one frees the node. -/
def signalLoop (signal : Signal) (fails : Pid → Bool) :
    ℕ → Option A → HeapGroup A → Option (HeapGroup A × List (Signal × Pid))
  | 0, _, _ => none
  | _ + 1, none, h => some (h, [])
  | fuel + 1, some node, h =>
    (h.store.heap node).bind fun this => this.data.bind fun proc =>
      let pid := h.records.pidOf proc
      let rest : Option (HeapGroup A) :=
        if fails pid then
          (h.store.modify .proclist fun heap l => l.deleteNode heap node).bind fun store =>
            (({ h with store := store } : HeapGroup A).removeProcess pid).map Prod.snd
        else some h
      rest.bind fun h =>
        (signalLoop signal fails fuel this.next h).map fun r => (r.1, (signal, pid) :: r.2)

/-- The pass of `limit_process` that sends SIGCONT or SIGSTOP. -/
def signalPass (signal : Signal) (fails : Pid → Bool) (fuel : ℕ) (h : HeapGroup A) :
    Option (HeapGroup A × List (Signal × Pid)) :=
  (h.store.lists .proclist).bind fun l => signalLoop signal fails fuel l.first h

end HeapGroup

/-! ## The group without links -/

/-- The data pointers of each list. -/
def Sequences.data {ι D : Type*} (r : Sequences ι A D) (i : ι) : Option (List (Option D)) :=
  (r i).map fun nodes => nodes.map Prod.snd

namespace ProcessGroup

def listData (g : ProcessGroup) : GroupList → Option (List (Option RecordId))
  | .proclist => some (g.proclist.map some)
  | .bucket idx => (g.proctable.table idx).map fun l => l.map some

/-- The members that fail are gone from the member list and from their buckets. -/
def withoutFailed (fails : Pid → Bool) (g : ProcessGroup) : ProcessGroup :=
  { g with
    proclist := g.proclist.filter fun id => !fails (g.records.pidOf id)
    proctable :=
      { g.proctable with
        table := fun idx => (g.proctable.table idx).map fun l => l.filter fun id =>
          !(fails (g.records.pidOf id) && decide (g.records.pidOf id ∈ g.memberPids)) } }

end ProcessGroup

/-- The lists of `h` are well formed and share no node, and their data are the lists of
`g`. `r` holds the nodes. -/
structure Image (h : HeapGroup A) (r : Sequences GroupList A RecordId) (g : ProcessGroup) :
    Prop where
  represents : h.store.Represents r
  unallocated : ∀ i, r i = none → h.store.lists i = none
  data_eq : ∀ i, r.data i = g.listData i
  records_eq : h.records = g.records
  hashsize_eq : h.hashsize = g.proctable.hashsize

/-! ## The simulation -/

namespace HeapGroup

/-- The walk finds the first node with the key. -/
theorem locateNode_eq {heap : Heap A (Option RecordId)} {p : Option A}
    {nodes : List (A × Option RecordId)} (h : Segment heap p nodes none) (rs : Records) (pid : Pid)
    (hdata : ∀ node ∈ nodes, node.2.isSome) {fuel : ℕ} (hfuel : nodes.length < fuel) :
    locateNode rs pid heap fuel (LinkedList.first nodes) =
      some ((nodes.find? fun node => node.2.map rs.pidOf = some pid).map Prod.fst) := by
  induction nodes generalizing p fuel with
  | nil =>
    cases fuel with
    | zero => cases hfuel
    | succ fuel => rfl
  | cons node nodes ih =>
    obtain ⟨a, x⟩ := node
    cases fuel with
    | zero => cases hfuel
    | succ fuel =>
      obtain ⟨id, rfl⟩ := Option.isSome_iff_exists.mp (hdata (a, x) (by simp))
      have hrest := ih h.2 (fun node hnode => hdata node (by simp [hnode]))
        (Nat.lt_of_succ_lt_succ hfuel)
      have hcell := h.1
      rw [Option.or_none] at hcell
      rw [LinkedList.first_cons, locateNode, hcell, Option.bind_some, Option.bind_some]
      by_cases hid : rs.pidOf id = pid
      · simp [hid]
      · simp [hid, hrest]

section RemoveProcess

variable [DecidableEq A] {h : HeapGroup A} {pid : Pid} {idx : ℤ}

theorem removeProcess_of_null (hidx : hashPid h.hashsize pid = idx)
    (hrange : 0 ≤ idx ∧ idx < h.hashsize) (hl : h.store.lists (.bucket idx) = none) :
    h.removeProcess pid = some (1, h) := by
  rw [removeProcess, processTableDelPid, processTableDel]
  dsimp only
  rw [hidx, if_pos hrange, hl]

variable {l : StructList A} {nodes : List (A × Option RecordId)}

/-- The bucket is allocated: what happens depends on the first node with the key. -/
theorem removeProcess_of_bucket (hidx : hashPid h.hashsize pid = idx)
    (hrange : 0 ≤ idx ∧ idx < h.hashsize) (hl : h.store.lists (.bucket idx) = some l)
    (hwf : l.WellFormed h.store.heap nodes) (hdata : ∀ node ∈ nodes, node.2.isSome) :
    h.removeProcess pid =
      ((nodes.find? fun node => node.2.map h.records.pidOf = some pid).map Prod.fst).elim
        (some (1, h)) fun node =>
          (h.store.modify (.bucket idx) fun heap l => l.deleteNode heap node).map fun store =>
            (0, { h with store := store }) := by
  have hfuel : nodes.length < l.count.toNat + 1 := by
    rw [hwf.count_eq, Int.toNat_natCast]
    exact Nat.lt_succ_self _
  rw [removeProcess, processTableDelPid, processTableDel]
  dsimp only
  rw [hidx, if_pos hrange, hl]
  dsimp only
  rw [hwf.first_eq, locateNode_eq hwf.links h.records pid hdata hfuel, Option.bind_some]
  cases nodes.find? fun node => node.2.map h.records.pidOf = some pid <;> rfl

end RemoveProcess

end HeapGroup

namespace Image

variable {h : HeapGroup A} {r : Sequences GroupList A RecordId} {g g' : ProcessGroup}
  {i : GroupList} {nodes before after : List (A × Option RecordId)} {a : A} {x : Option RecordId}

theorem listData_of_some (him : Image h r g) (hr : r i = some nodes) :
    g.listData i = some (nodes.map Prod.snd) := by
  rw [← him.data_eq, Sequences.data, hr, Option.map_some]

theorem listData_of_none (him : Image h r g) (hr : r i = none) : g.listData i = none := by
  rw [← him.data_eq, Sequences.data, hr, Option.map_none]

/-- The lists of a group have no null data pointers. -/
theorem isSome_of_mem (him : Image h r g) (hr : r i = some nodes) :
    ∀ node ∈ nodes, node.2.isSome := by
  have hdata := him.listData_of_some hr
  have hids : ∃ ids : List RecordId, nodes.map Prod.snd = ids.map some := by
    cases i with
    | proclist => exact ⟨_, (Option.some.inj hdata).symm⟩
    | bucket idx =>
      obtain ⟨l, -, hl⟩ := Option.map_eq_some_iff.mp hdata
      exact ⟨l, hl.symm⟩
  obtain ⟨ids, hids⟩ := hids
  intro node hnode
  have hmem : node.2 ∈ nodes.map Prod.snd := List.mem_map_of_mem hnode
  rw [hids] at hmem
  obtain ⟨id, -, hid⟩ := List.mem_map.mp hmem
  rw [← hid, Option.isSome_some]

/-- One list of the group changes, where `g'` is what that makes of `g`. -/
theorem replace (him : Image h r g) {h' : HeapGroup A}
    (hrep : h'.store.Represents (Function.update r i (some nodes)))
    (hlists : ∀ j, j ≠ i → h'.store.lists j = h.store.lists j)
    (hself : g'.listData i = some (nodes.map Prod.snd))
    (hother : ∀ j, j ≠ i → g'.listData j = g.listData j) (hrecords : h'.records = g'.records)
    (hhashsize : h'.hashsize = g'.proctable.hashsize) :
    Image h' (Function.update r i (some nodes)) g' := by
  refine ⟨hrep, fun j hj => ?_, fun j => ?_, hrecords, hhashsize⟩
  · by_cases hji : j = i
    · subst hji
      rw [Function.update_self] at hj
      cases hj
    · rw [Function.update_of_ne hji] at hj
      exact (hlists j hji).trans (him.unallocated j hj)
  · by_cases hji : j = i
    · subst hji
      rw [Sequences.data, Function.update_self, hself]
      rfl
    · rw [Sequences.data, Function.update_of_ne hji, hother j hji]
      exact him.data_eq j

/-- `delete_node` on a list of the group. -/
theorem deleteNode [DecidableEq A] (him : Image h r g)
    (hr : r i = some (before ++ (a, x) :: after))
    (hself : g'.listData i = some ((before ++ after).map Prod.snd))
    (hother : ∀ j, j ≠ i → g'.listData j = g.listData j) (hrecords : g'.records = g.records)
    (hhashsize : g'.proctable.hashsize = g.proctable.hashsize) :
    ∃ store, (h.store.modify i fun heap l => l.deleteNode heap a) = some store ∧
      Image { h with store := store } (Function.update r i (some (before ++ after))) g' ∧
      Confined r (Function.update r i (some (before ++ after))) h.store.heap store.heap := by
  obtain ⟨store, hstore, hrep, hsame, hconfined⟩ := him.represents.deleteNode hr
  exact ⟨store, hstore, him.replace hrep (fun j hj => (hsame j hj).1) hself hother
    (him.records_eq.trans hrecords.symm) (him.hashsize_eq.trans hhashsize.symm), hconfined⟩

end Image

/-- The bucket of the key loses the first record with that key. -/
theorem ProcessGroup.listData_removeProcess (g : ProcessGroup) (pid : Pid) (j : GroupList) :
    (g.removeProcess pid).listData j =
      if j = .bucket (hashPid g.proctable.hashsize pid) then
        (g.listData j).map fun l => l.eraseP fun x => x.map g.records.pidOf = some pid
      else g.listData j := by
  cases j with
  | proclist => rfl
  | bucket idx =>
    rw [listData, removeProcess, processTableDelPid_table, ChainedTable.del, Function.update_apply]
    by_cases hidx : idx = hashPid g.proctable.hashsize pid
    · subst hidx
      rw [if_pos rfl, if_pos rfl, listData, Option.map_map, Option.map_map]
      congr 1
      funext l
      simp only [Function.comp_apply, List.eraseP_map]
      congr 2
      funext id
      simp
    · rw [if_neg hidx, if_neg fun he => hidx (GroupList.bucket.inj he), listData]

namespace Image

variable {h : HeapGroup A} {r : Sequences GroupList A RecordId} {g : ProcessGroup} {pid : Pid}
  {idx : ℤ}

/-- Where the bucket has no record of `pid` to lose, nothing changes. -/
theorem removeProcess_absent (him : Image h r g) (hidx : hashPid g.proctable.hashsize pid = idx)
    (hkeep : ∀ l, g.listData (.bucket idx) = some l →
      ∀ x ∈ l, x.map g.records.pidOf ≠ some pid) : Image h r (g.removeProcess pid) where
  represents := him.represents
  unallocated := him.unallocated
  data_eq j := by
    rw [him.data_eq, g.listData_removeProcess, hidx]
    split_ifs with hj
    · subst hj
      cases hl : g.listData (.bucket idx) with
      | none => rfl
      | some l =>
        rw [Option.map_some, List.eraseP_of_forall_not]
        intro x hx
        simpa using hkeep l hl x hx
    · rfl
  records_eq := him.records_eq
  hashsize_eq := him.hashsize_eq.trans (processTableDelPid_hashsize _ _ _).symm

variable [DecidableEq A]

/-- `remove_process` on both sides. The member list keeps its nodes. -/
theorem removeProcess (him : Image h r g) (ht : TableOk g.records g.proctable)
    (hpos : 0 < pid) :
    ∃ ret h' r', h.removeProcess pid = some (ret, h') ∧ Image h' r' (g.removeProcess pid) ∧
      r' .proclist = r .proclist ∧ Confined r r' h.store.heap h'.store.heap := by
  obtain ⟨-, hrange⟩ := ht.hashPid_eq hpos
  have hlist := g.listData_removeProcess pid
  rw [← him.hashsize_eq] at hrange
  generalize hidx : hashPid h.hashsize pid = idx at hrange
  have hidx' : hashPid g.proctable.hashsize pid = idx := by rw [← him.hashsize_eq, hidx]
  rw [hidx', ← him.records_eq] at hlist
  cases hr : r (.bucket idx) with
  | none =>
    refine ⟨1, h, r, HeapGroup.removeProcess_of_null hidx hrange (him.unallocated _ hr),
      him.removeProcess_absent hidx' fun l hl => ?_, rfl, .refl _ _⟩
    rw [him.listData_of_none hr] at hl
    cases hl
  | some nodes =>
    obtain ⟨l, hl, hwf⟩ := him.represents.wellFormed _ _ hr
    rw [HeapGroup.removeProcess_of_bucket hidx hrange hl hwf (him.isSome_of_mem hr)]
    cases hfind : nodes.find? fun node => node.2.map h.records.pidOf = some pid with
    | none =>
      refine ⟨1, h, r, rfl, him.removeProcess_absent hidx' fun l hl x hx => ?_, rfl, .refl _ _⟩
      rw [him.listData_of_some hr] at hl
      cases hl
      obtain ⟨node, hnode, rfl⟩ := List.mem_map.mp hx
      rw [← him.records_eq]
      simpa using List.find?_eq_none.mp hfind node hnode
    | some node =>
      obtain ⟨a, x⟩ := node
      obtain ⟨hkey, before, after, rfl, hbefore⟩ := List.find?_eq_some_iff_append.mp hfind
      have herase : ((before ++ (a, x) :: after).map Prod.snd).eraseP
          (fun x => x.map h.records.pidOf = some pid) = (before ++ after).map Prod.snd := by
        rw [List.map_append, List.map_cons, List.eraseP_append_right, List.eraseP_cons_of_pos,
          List.map_append]
        · exact hkey
        · intro x hx
          obtain ⟨node, hnode, rfl⟩ := List.mem_map.mp hx
          simpa using hbefore node hnode
      have hself : (g.removeProcess pid).listData (.bucket idx) =
          some ((before ++ after).map Prod.snd) := by
        rw [hlist, if_pos rfl, him.listData_of_some hr, Option.map_some, herase]
      obtain ⟨store, hstore, him', hconfined⟩ := him.deleteNode hr hself
        (fun j hj => by rw [hlist, if_neg hj]) rfl (processTableDelPid_hashsize _ _ _)
      refine ⟨0, _, _, ?_, him', Function.update_of_ne (by simp) _ _, hconfined⟩
      rw [Option.map_some, Option.elim_some, hstore, Option.map_some]

omit [DecidableEq A] in
/-- The position of a node is the position of its record. -/
theorem getElem?_proclist (him : Image h r g) {done todo : List (A × Option RecordId)} {a : A}
    {x : Option RecordId} (hr : r .proclist = some (done ++ (a, x) :: todo)) :
    ∃ id, x = some id ∧ g.proclist[done.length]? = some id := by
  have hdata := Option.some.inj (him.listData_of_some hr)
  have hget : (g.proclist.map some)[done.length]? = some x := by
    rw [hdata, List.map_append, List.getElem?_append_right (by simp)]
    simp
  rw [List.getElem?_map, Option.map_eq_some_iff] at hget
  obtain ⟨id, hid, rfl⟩ := hget
  exact ⟨id, rfl, hid⟩

/-- A failed signal: `delete_node` on the member list, then `remove_process`. -/
theorem dropMember (him : Image h r g) (hc : ProcessGroup.Coherent g)
    {done todo : List (A × Option RecordId)} {a : A} {id : RecordId}
    (hr : r .proclist = some (done ++ (a, some id) :: todo)) :
    ∃ store ret h' r', (h.store.modify .proclist fun heap l => l.deleteNode heap a) = some store ∧
      HeapGroup.removeProcess { h with store := store } (g.records.pidOf id) = some (ret, h') ∧
      Image h' r' (g.dropMember done.length) ∧ r' .proclist = some (done ++ todo) ∧
      Confined r r' h.store.heap h'.store.heap := by
  obtain ⟨id', he, hid⟩ := him.getElem?_proclist hr
  obtain rfl : id = id' := Option.some.inj he
  have hstored := ((hc.table.findPid_eq_some_iff _ _).mp
    (hc.found id (List.mem_of_getElem? hid))).1
  have hdata := Option.some.inj (him.listData_of_some hr)
  have hself : ({ g with proclist := g.proclist.eraseIdx done.length } :
      ProcessGroup).listData .proclist = some ((done ++ todo).map Prod.snd) := by
    rw [ProcessGroup.listData, ← List.eraseIdx_map, hdata, List.eraseIdx_map,
      List.eraseIdx_append_of_length_le (Nat.le_refl _), Nat.sub_self]
    rfl
  have hother : ∀ j, j ≠ .proclist → ({ g with proclist := g.proclist.eraseIdx done.length } :
      ProcessGroup).listData j = g.listData j := by
    intro j hj
    cases j with
    | proclist => exact absurd rfl hj
    | bucket idx => rfl
  obtain ⟨store, hstore, him₁, hconfined⟩ := him.deleteNode hr hself hother rfl rfl
  obtain ⟨ret, h', r', hremove, him', hr', hconfined'⟩ :=
    him₁.removeProcess hc.table (hc.table.pid_pos id hstored)
  rw [ProcessGroup.dropMember_of_getElem hid]
  rw [Function.update_self] at hr'
  exact ⟨store, ret, h', r', hstore, hremove, him', hr', hconfined.trans hconfined'⟩

/-- The loop from the first node of `todo` on, after those of `done`. The induction is
over the nodes to come: the pointer saved before a node is freed is the first of them. -/
theorem signalLoop_confined (signal : Signal) (fails : Pid → Bool)
    {done todo : List (A × Option RecordId)} (him : Image h r g) (hc : ProcessGroup.Coherent g)
    (hr : r .proclist = some (done ++ todo)) {fuel : ℕ} (hfuel : todo.length < fuel) :
    ∃ h' r', HeapGroup.signalLoop signal fails fuel (LinkedList.first todo) h =
        some (h', (g.memberPids.drop done.length).map fun pid => (signal, pid)) ∧
      Image h' r' (g.signalPass fails todo.length done.length) ∧
      Confined r r' h.store.heap h'.store.heap := by
  induction todo generalizing h r g done fuel with
  | nil =>
    cases fuel with
    | zero => cases hfuel
    | succ fuel =>
      have hdata := Option.some.inj (him.listData_of_some hr)
      have hlength : g.memberPids.length = done.length := by
        simpa [ProcessGroup.memberPids] using congrArg List.length hdata
      refine ⟨h, r, ?_, him, .refl _ _⟩
      rw [List.drop_eq_nil_of_le (Nat.le_of_eq hlength)]
      rfl
  | cons node todo ih =>
    cases fuel with
    | zero => cases hfuel
    | succ fuel =>
      obtain ⟨a, x⟩ := node
      obtain ⟨id, rfl, hid⟩ := him.getElem?_proclist hr
      obtain ⟨l, -, hwf⟩ := him.represents.wellFormed _ _ hr
      have hcell := hwf.cell_eq
      have hlt := Nat.lt_of_succ_lt_succ hfuel
      have hnode := ProcessGroup.getElem?_memberPids_of_some hid
      rw [Sweep.drop_eq_cons hnode, LinkedList.first_cons, HeapGroup.signalLoop, hcell,
        Option.bind_some, Option.bind_some, List.length_cons, ProcessGroup.signalPass, hid]
      have hpid : h.records.pidOf id = g.records.pidOf id := by rw [him.records_eq]
      dsimp only
      rw [hpid]
      by_cases hfails : fails (g.records.pidOf id) = true
      · obtain ⟨store, ret, h', r', hstore, hremove, him', hr', hconfined⟩ := him.dropMember hc hr
        obtain ⟨h'', r'', hloop, him'', hconfined'⟩ :=
          ih him' (hc.dropMember done.length) hr' hlt
        rw [ProcessGroup.memberPids_dropMember, Sweep.drop_eraseIdx hnode] at hloop
        refine ⟨h'', r'', ?_, ?_, hconfined.trans hconfined'⟩
        · rw [if_pos hfails, hstore, Option.bind_some, hremove, Option.map_some, Option.bind_some,
            hloop]
          rfl
        · rw [if_pos hfails]
          exact him''
      · rw [List.append_cons] at hr
        obtain ⟨h', r', hloop, him', hconfined⟩ := ih him hc hr hlt
        rw [List.length_append] at hloop him'
        refine ⟨h', r', ?_, ?_, hconfined⟩
        · rw [if_neg hfails, Option.bind_some, hloop]
          rfl
        · rw [if_neg hfails]
          exact him'

theorem signalLoop (signal : Signal) (fails : Pid → Bool) {done todo : List (A × Option RecordId)}
    (him : Image h r g) (hc : ProcessGroup.Coherent g) (hr : r .proclist = some (done ++ todo))
    {fuel : ℕ} (hfuel : todo.length < fuel) :
    ∃ h' r', HeapGroup.signalLoop signal fails fuel (LinkedList.first todo) h =
        some (h', (g.memberPids.drop done.length).map fun pid => (signal, pid)) ∧
      Image h' r' (g.signalPass fails todo.length done.length) := by
  obtain ⟨h', r', hloop, him', -⟩ := him.signalLoop_confined signal fails hc hr hfuel
  exact ⟨h', r', hloop, him'⟩

end Image

/-! ## What a pass leaves -/

namespace ProcessGroup

variable {g : ProcessGroup}

theorem proclist_dropMember (g : ProcessGroup) (node : ℕ) :
    (g.dropMember node).proclist = g.proclist.eraseIdx node := by
  cases hid : g.proclist[node]? with
  | none =>
    rw [List.getElem?_eq_none_iff] at hid
    rw [dropMember, List.getElem?_eq_none hid, List.eraseIdx_of_length_le hid]
  | some id =>
    rw [dropMember_of_getElem hid]
    rfl

theorem records_dropMember (g : ProcessGroup) (node : ℕ) :
    (g.dropMember node).records = g.records := by
  unfold dropMember
  split <;> rfl

theorem hashsize_dropMember (g : ProcessGroup) (node : ℕ) :
    (g.dropMember node).proctable.hashsize = g.proctable.hashsize := by
  unfold dropMember
  split
  · rfl
  · exact processTableDelPid_hashsize _ _ _

theorem records_signalPass (fails : Pid → Bool) (left node : ℕ) (g : ProcessGroup) :
    (signalPass fails left node g).records = g.records := by
  have hdrop : ∀ g' node, g'.records = g.records → (dropMember g' node).records = g.records :=
    fun g' node h => (records_dropMember g' node).trans h
  exact signalPass_invariant hdrop fails left node rfl

theorem hashsize_signalPass (fails : Pid → Bool) (left node : ℕ) (g : ProcessGroup) :
    (signalPass fails left node g).proctable.hashsize = g.proctable.hashsize := by
  have hdrop : ∀ g' node, g'.proctable.hashsize = g.proctable.hashsize →
      (dropMember g' node).proctable.hashsize = g.proctable.hashsize :=
    fun g' node h => (hashsize_dropMember g' node).trans h
  exact signalPass_invariant hdrop fails left node rfl

/-- A signal pass is a sweep over the member list. -/
theorem proclist_signalPass (fails : Pid → Bool) (left node : ℕ) (g : ProcessGroup) :
    (signalPass fails left node g).proclist =
      Sweep.sweep (fun id => !fails (g.records.pidOf id)) left node g.proclist := by
  induction left generalizing node g with
  | zero => rfl
  | succ left ih =>
    cases hid : g.proclist[node]? with
    | none => simp only [signalPass, Sweep.sweep, hid]
    | some id =>
      rw [signalPass, hid, Sweep.sweep, hid]
      dsimp only
      by_cases hfails : fails (g.records.pidOf id) = true
      · rw [if_pos hfails, ih, proclist_dropMember, records_dropMember, if_neg (by simp [hfails])]
      · rw [if_neg hfails, ih, if_pos (by simp [hfails])]

theorem table_dropMember (h : TableSound g) {node : ℕ} {id : RecordId}
    (hid : g.proclist[node]? = some id) :
    (g.dropMember node).proctable.table = fun idx =>
      (g.proctable.table idx).map fun l => l.filter fun x =>
        !decide (g.records.pidOf x = g.records.pidOf id) := by
  rw [dropMember_of_getElem hid, removeProcess, processTableDelPid_table, h.placed.del_eq]

/-- The table loses the records of the members behind `node` that fail, and the chains
keep the others in their order. -/
theorem table_signalPass {fails : Pid → Bool} (h : TableSound g) {left node : ℕ}
    (hleft : g.proclist.length ≤ node + left) :
    (signalPass fails left node g).proctable.table = fun idx =>
      (g.proctable.table idx).map fun l => l.filter fun id =>
        !(fails (g.records.pidOf id) &&
          decide (g.records.pidOf id ∈ g.memberPids.drop node)) := by
  refine signalPass_induction (motive := fun node g t => TableSound g →
      t.proctable.table = fun idx => (g.proctable.table idx).map fun l => l.filter fun id =>
        !(fails (g.records.pidOf id) && decide (g.records.pidOf id ∈ g.memberPids.drop node)))
    (fun node g hnil _ => ?_) (fun node g t id hid hf ih h => ?_)
    (fun node g t id hid hf ih h => ?_) hleft h
  · simp [hnil]
  · have hnode := getElem?_memberPids_of_some hid
    rw [ih h, Sweep.drop_eq_cons hnode]
    funext idx
    congr 1
    funext l
    congr 1
    funext x
    by_cases hx : g.records.pidOf x = g.records.pidOf id
    · simp [hx, hf]
    · simp [hx]
  · have hnode := getElem?_memberPids_of_some hid
    rw [ih (h.dropMember node), table_dropMember h hid, records_dropMember,
      memberPids_dropMember, Sweep.drop_eraseIdx hnode, Sweep.drop_eq_cons hnode]
    funext idx
    rw [Option.map_map]
    congr 1
    funext l
    rw [Function.comp_apply, List.filter_filter]
    congr 1
    funext x
    by_cases hx : g.records.pidOf x = g.records.pidOf id
    · simp [hx, hf]
    · simp [hx]

/-- A whole pass. -/
theorem listData_signalPass (h : TableSound g) (fails : Pid → Bool) (j : GroupList) :
    (signalPass fails g.proclist.length 0 g).listData j = (g.withoutFailed fails).listData j := by
  cases j with
  | proclist =>
    rw [listData, proclist_signalPass, Sweep.sweep_eq _ (Nat.le_add_left _ _), List.take_zero,
      List.drop_zero, List.nil_append]
    rfl
  | bucket idx =>
    rw [listData, table_signalPass h (Nat.le_add_left _ _)]
    rfl

end ProcessGroup

section Passes

variable [DecidableEq A] {h : HeapGroup A} {r : Sequences GroupList A RecordId}
  {g : ProcessGroup}

/-- A pass sends the signal once to each member in the order of the list, and drops those
to which it could not be sent: they are the ones that the member list and the table lose,
and what remains of the lists is well formed. -/
theorem signalPass_drops_failed (him : Image h r g) (hc : ProcessGroup.Coherent g)
    (signal : Signal) (fails : Pid → Bool) {fuel : ℕ} (hfuel : g.proclist.length < fuel) :
    ∃ h' r', h.signalPass signal fails fuel =
        some (h', g.memberPids.map fun pid => (signal, pid)) ∧
      Image h' r' (g.withoutFailed fails) := by
  cases hr : r .proclist with
  | none => cases him.listData_of_none hr
  | some nodes =>
    obtain ⟨l, hl, hwf⟩ := him.represents.wellFormed _ _ hr
    have hlength : g.proclist.length = nodes.length := by
      simpa using congrArg List.length (Option.some.inj (him.listData_of_some hr))
    have hstart : r .proclist = some ([] ++ nodes) := hr
    obtain ⟨h', r', hloop, him'⟩ := him.signalLoop signal fails hc hstart (hlength ▸ hfuel)
    rw [← hlength] at him'
    refine ⟨h', r', ?_, him'.represents, him'.unallocated, fun j => ?_, ?_, ?_⟩
    · rw [HeapGroup.signalPass, hl, Option.bind_some, hwf.first_eq, hloop]
      rfl
    · rw [him'.data_eq]
      exact ProcessGroup.listData_signalPass hc.table fails j
    · exact him'.records_eq.trans (ProcessGroup.records_signalPass _ _ _ _)
    · exact him'.hashsize_eq.trans (ProcessGroup.hashsize_signalPass _ _ _ _)

end Passes

/-! ## Two members in one bucket -/

/-- The processes 5 and 2053, whose records 0 and 1 share a bucket of the table. -/
def pairGroup : ProcessGroup where
  records := ⟨fun id => { Records.blank with pid := if id = 0 then 5 else 2053 }, {0, 1}, 2⟩
  proctable := ⟨fun idx => if idx = 5 then some [0, 1] else none, 2048⟩
  proclist := [0, 1]
  targetPid := 5
  includeChildren := true
  lastUpdate := ⟨0, 0⟩

/-- Their nodes in the member list and in the bucket. -/
def pairNodes : Sequences GroupList ℕ RecordId
  | .proclist => some [(10, some 0), (11, some 1)]
  | .bucket idx => if idx = 5 then some [(20, some 0), (21, some 1)] else none

def pairHeap : HeapGroup ℕ where
  records := pairGroup.records
  hashsize := 2048
  store :=
    { heap := fun a =>
        if a = 10 then some ⟨some 0, none, some 11⟩
        else if a = 11 then some ⟨some 1, some 10, none⟩
        else if a = 20 then some ⟨some 0, none, some 21⟩
        else if a = 21 then some ⟨some 1, some 20, none⟩
        else none
      lists := fun i => (pairNodes i).map fun nodes =>
        ⟨LinkedList.first nodes, LinkedList.last nodes, 4, nodes.length⟩ }

theorem coherent_pairGroup : ProcessGroup.Coherent pairGroup := by
  have hbucket : ∀ i, ChainedTable.bucket pairGroup.proctable.table i =
      if i = 5 then [0, 1] else [] := by
    intro i
    rw [ChainedTable.bucket, pairGroup]
    dsimp only
    split_ifs <;> rfl
  have hstored : ∀ id, ChainedTable.Stored pairGroup.proctable.table id → id = 0 ∨ id = 1 := by
    rintro id ⟨i, hi⟩
    rw [hbucket] at hi
    split_ifs at hi
    · simpa using hi
    · cases hi
  refine ⟨⟨by decide, ⟨fun i id hid => ?_, fun i => ?_⟩, fun id hid => ?_, fun id hid => ?_⟩,
    by decide, by decide⟩
  · rw [hbucket] at hid
    split_ifs at hid with hi
    · subst hi
      revert id
      decide
    · cases hid
  · rw [hbucket]
    split_ifs <;> decide
  · rcases hstored id hid with rfl | rfl <;> decide
  · rcases hstored id hid with rfl | rfl <;> decide

theorem image_pairHeap : Image pairHeap pairNodes pairGroup := by
  have howner : ∀ i, ∀ a ∈ addresses (pairNodes.nodes i),
      i = if a < 20 then .proclist else .bucket 5 := by
    intro i a ha
    cases i with
    | proclist => revert a; decide
    | bucket idx =>
      rw [Sequences.nodes, pairNodes] at ha
      split_ifs at ha with hidx
      · subst hidx
        revert a
        decide
      · cases ha
  have hnodes : ∀ i nodes, pairNodes i = some nodes →
      Segment pairHeap.store.heap none nodes none ∧ (addresses nodes).Nodup := by
    intro i nodes hi
    cases i with
    | proclist =>
      cases hi
      exact ⟨⟨rfl, rfl, trivial⟩, by decide⟩
    | bucket idx =>
      rw [pairNodes] at hi
      split_ifs at hi
      cases hi
      exact ⟨⟨rfl, rfl, trivial⟩, by decide⟩
  have hlists : ∀ i, pairHeap.store.lists i = (pairNodes i).map fun nodes =>
      ⟨LinkedList.first nodes, LinkedList.last nodes, 4, nodes.length⟩ := fun _ => rfl
  refine ⟨⟨fun i nodes hi => ?_, fun i j hij a ha ha' => ?_⟩, fun i hi => ?_, fun i => ?_, rfl, rfl⟩
  · obtain ⟨hlinks, hdistinct⟩ := hnodes i nodes hi
    exact ⟨_, by rw [hlists, hi, Option.map_some],
      StructList.wellFormed_iff.mpr ⟨hlinks, hdistinct, rfl, rfl, rfl⟩⟩
  · exact hij ((howner i a ha).trans (howner j a ha').symm)
  · rw [hlists, hi, Option.map_none]
  · cases i with
    | proclist => rfl
    | bucket idx =>
      rw [Sequences.data, pairNodes, ProcessGroup.listData, pairGroup]
      dsimp only
      split_ifs <;> rfl

theorem signalPass_drops_failed_pairHeap :
    ∃ h' r', pairHeap.signalPass .stop (fun pid => pid = 5) 3 =
        some (h', [(.stop, 5), (.stop, 2053)]) ∧
      Image h' r' (pairGroup.withoutFailed fun pid => pid = 5) :=
  signalPass_drops_failed image_pairHeap coherent_pairGroup .stop _ (by decide)

end CpuLimit
