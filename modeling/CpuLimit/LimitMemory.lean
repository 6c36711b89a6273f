import CpuLimit.GroupMemory

/-!
# limit_process on linked lists

A whole call of `limit_process`, from `init_process_group` to `close_process_group`, with
the lists of its group in memory. It goes side by side with the call on sequences of data
pointers: it commits no fault, sends the same signals, frees the same records, and leaves
the heap of nodes as it was.
-/
namespace CpuLimit

open Library
open Library.LinkedList (Heap)

variable {A : Type}

/-! ## limit_process -/

/-- What the loop of `limit_process` leaves: the group, the static time slot, whether
`quit_flag` was seen, and the signals that were sent. -/
structure LoopEnd (G : Type) where
  group : G
  timeSlot : ℚ
  quit : Bool
  sent : List (Signal × Pid)

/-- The variables of `limit_process`. -/
structure MemoryState (A : Type) where
  group : MemoryGroup A
  duty : Duty

namespace MemoryState

variable [DecidableEq A]

/-- One cycle: the group when it has no members, or else the next state and the
signals sent. -/
def limitCycle (alloc : Allocator A) (ncpu : ℤ) (limit : ℚ) (s : MemoryState A)
    (i : CycleInput) : Outcome Unit (MemoryGroup A ⊕ MemoryState A × List (Signal × Pid)) := do
  let m ← s.group.updateProcessGroup alloc i.now i.yielded
  let l ← Outcome.orFault () (m.lists.store.lists .proclist)
  if l.count = 0 then return .inl m
  else
    let procs ← Outcome.orFault () m.lists.members
    let usages := procs.map fun id => (m.lists.records.cell id).cpuUsage
    let duty := s.duty.cycle ncpu limit usages i.load
    let fuel := l.count.toNat + 1
    let conts ← Outcome.orFault () (m.lists.signalPass .cont i.contFails fuel)
    if 0 < duty.tsleep.tvNsec ∨ 0 < duty.tsleep.tvSec then
      let stops ← Outcome.orFault () (conts.1.signalPass .stop i.stopFails fuel)
      return .inr (⟨{ m with lists := stops.1 }, duty⟩, conts.2 ++ stops.2)
    else return .inr (⟨{ m with lists := conts.1 }, duty⟩, conts.2)

/-- The loop of `limit_process`. When the inputs are used up, `quit_flag` is seen and the
members are resumed. -/
def cycles (ncpu : ℤ) (limit : ℚ) : MemoryState A → List (Allocator A × CycleInput) →
    Outcome Unit (LoopEnd (MemoryGroup A))
  | s, [] => do
    let procs ← Outcome.orFault () s.group.lists.members
    let resumed := procs.map fun id => (Signal.cont, s.group.lists.records.pidOf id)
    return ⟨s.group, s.duty.timeSlot, true, resumed⟩
  | s, i :: inputs => do
    let turn ← s.limitCycle i.1 ncpu limit i.2
    match turn with
    | .inl m => return ⟨m, s.duty.timeSlot, false, []⟩
    | .inr (t, sent) => do
      let r ← cycles ncpu limit t inputs
      return { r with sent := sent ++ r.sent }

end MemoryState

/-- `limit_process`, and what is left of its group after `close_process_group`. -/
def limitProcess [DecidableEq A] (ncpu : ℤ) (limit : ℚ) (target : Pid) (includeChildren : Bool)
    (start built : Timespec) (alloc : Allocator A) (initial : List Process) (timeSlot : ℚ)
    (inputs : List (Allocator A × CycleInput)) (heap : Heap A (Option RecordId)) :
    Outcome Unit (LoopEnd (HeapGroup A)) := do
  let m ← MemoryGroup.initProcessGroup alloc heap target includeChildren start built initial
  let r ← MemoryState.cycles ncpu limit ⟨m, Duty.start timeSlot⟩ inputs
  let h ← Outcome.orFault () r.group.lists.closeProcessGroup
  return { r with group := h }

/-! ## The same without links -/

namespace LimitState

/-- The signals that a cycle sends, if it does not exit. -/
def sent (ncpu : ℤ) (limit : ℚ) (s : LimitState) (i : CycleInput) : List (Signal × Pid) :=
  let g := s.updated i
  g.memberPids.map (fun pid => (.cont, pid)) ++
    if Sleeps ncpu limit s i then
      (g.signalPass i.contFails g.proclist.length 0).memberPids.map fun pid => (.stop, pid)
    else []

/-- The loop of `limit_process`. -/
def cycles (ncpu : ℤ) (limit : ℚ) : LimitState → List CycleInput → LoopEnd ProcessGroup
  | s, [] =>
    ⟨s.group, s.duty.timeSlot, true, s.group.memberPids.map fun pid => (.cont, pid)⟩
  | s, i :: inputs =>
    match s.limitCycle ncpu limit i with
    | none => ⟨s.updated i, s.duty.timeSlot, false, []⟩
    | some t =>
      let r := cycles ncpu limit t inputs
      { r with sent := s.sent ncpu limit i ++ r.sent }

end LimitState

/-! ## Buckets -/

namespace ProcessGroup

variable {g : ProcessGroup}

theorem bucketsInRange_fresh (target : Pid) (includeChildren : Bool) (start : Timespec) :
    BucketsInRange (fresh target includeChildren start) := fun _ h => absurd rfl h

theorem BucketsInRange.updateStep (h : BucketsInRange g) (ht : TableSound g) (dt : ℚ)
    {tmp : Process} (hpos : 0 < tmp.pid) : BucketsInRange (g.updateStep dt tmp) := by
  cases hf : processTableFindPid g.records g.proctable tmp.pid with
  | none =>
    intro idx hidx
    rw [updateStep_new dt hf] at hidx ⊢
    dsimp only at hidx ⊢
    rw [processTableAdd_table, TableOk.pidOf_processDup_next, ChainedTable.add,
      Function.update_apply] at hidx
    rw [processTableAdd_hashsize]
    have hnew : 0 < (newcomer tmp).pid := hpos
    split_ifs at hidx with he
    · rw [he]
      exact (ht.hashPid_eq hnew).2
    · exact h idx hidx
  | some p =>
    rw [updateStep_seen dt hf]
    exact h

theorem BucketsInRange.dropMember (h : BucketsInRange g) (node : ℕ) :
    BucketsInRange (g.dropMember node) := by
  cases hid : g.proclist[node]? with
  | none => simpa [ProcessGroup.dropMember, hid] using h
  | some id =>
    rw [dropMember_of_getElem hid]
    intro idx hidx
    change (processTableDelPid g.records g.proctable _).2.table idx ≠ none at hidx
    change 0 ≤ idx ∧ idx < (processTableDelPid g.records g.proctable _).2.hashsize
    rw [processTableDelPid_table, ChainedTable.del, Function.update_apply] at hidx
    rw [processTableDelPid_hashsize]
    refine h idx ?_
    split_ifs at hidx with he
    · rw [he]
      exact fun hnone => hidx (by rw [hnone, Option.map_none])
    · exact hidx

theorem BucketsInRange.update (h : BucketsInRange g) (ht : TableSound g) (now : Timespec)
    {yielded : List Process} (hpos : ∀ tmp ∈ yielded, 0 < tmp.pid) :
    BucketsInRange (g.update now yielded) := by
  have hloop : ∀ (yielded : List Process) (g : ProcessGroup) (dt : ℚ), BucketsInRange g →
      TableSound g → (∀ tmp ∈ yielded, 0 < tmp.pid) →
        BucketsInRange (yielded.foldl (ProcessGroup.updateStep dt) g) := by
    intro yielded
    induction yielded with
    | nil => exact fun _ _ h _ _ => h
    | cons tmp rest ih =>
      intro g dt h ht hpos
      have htmp := hpos tmp (by simp)
      exact ih _ dt (h.updateStep ht dt htmp) (ht.updateStep dt htmp)
        fun x hx => hpos x (by simp [hx])
  intro idx hidx
  rw [ProcessGroup.update, stamp_proctable] at hidx ⊢
  exact hloop yielded g.clearMembers _ h ht hpos idx hidx

end ProcessGroup

theorem ProcessGroup.length_proclist_signalPass (fails : Pid → Bool) (g : ProcessGroup) :
    (g.signalPass fails g.proclist.length 0).proclist.length ≤ g.proclist.length := by
  have hfilter := congrArg List.length (memberPids_wholePass fails g)
  have hle := List.length_filter_le (fun pid => !fails pid) g.memberPids
  rw [← hfilter, memberPids, memberPids, List.length_map, List.length_map] at hle
  exact hle

/-! ## Cycles -/

namespace MemoryState

open ProcessGroup

variable {heap : Heap A (Option RecordId)} {s : MemoryState A} {t : LimitState}

/-- The two calls are at the same point. -/
structure Mirrors (heap : Heap A (Option RecordId)) (s : MemoryState A) (t : LimitState) :
    Prop where
  group : s.group.Mirrors heap t.group
  duty_eq : s.duty = t.duty

/-- What the loop head needs of the group. -/
structure AtHead (g : ProcessGroup) : Prop where
  held : Held g
  buckets : BucketsInRange g

theorem atHead_update {g : ProcessGroup} (h : AtHead g) (now : Timespec) {yielded : List Process}
    (hv : ValidScan yielded) : AtHead (g.update now yielded) :=
  ⟨h.held.update now hv, h.buckets.update h.held.coherent.table now hv.2⟩

theorem atHead_dropMember {g : ProcessGroup} (node : ℕ) (h : AtHead g) :
    AtHead (g.dropMember node) :=
  ⟨h.held.dropMember node, h.buckets.dropMember node⟩

variable [DecidableEq A]

/-- A cycle of one is a cycle of the other. -/
theorem limitCycle_mirrors (alloc : Allocator A) (ncpu : ℤ) (limit : ℚ) (hm : Mirrors heap s t)
    (ht : TableSound t.group) {i : CycleInput} (hv : ValidScan i.yielded) :
    (s.limitCycle alloc ncpu limit i).Delivers <|
      Sum.elim (fun m => t.limitCycle ncpu limit i = none ∧ m.Mirrors heap (t.updated i))
        fun r => ∃ t', t.limitCycle ncpu limit i = some t' ∧ Mirrors heap r.1 t' ∧
          r.2 = t.sent ncpu limit i := by
  have hc : Coherent (t.updated i) := (update_spec ht i.now hv).1
  refine (hm.group.updateProcessGroup alloc ht i.now hv.2).bind fun m hmirrors => ?_
  change m.Mirrors heap (t.updated i) at hmirrors
  obtain ⟨l, hl, hcount, -⟩ := hmirrors.lists.exists_proclist
  have hrecords : m.lists.records = (t.updated i).records := by
    obtain ⟨r, him, -⟩ := hmirrors.lists
    exact him.records_eq
  rw [hl, Outcome.orFault_some, Outcome.returned_bind]
  by_cases hzero : (t.updated i).proclist.length = 0
  · rw [if_pos (by rw [hcount, hzero]; rfl)]
    exact .returned ⟨if_pos hzero, hmirrors⟩
  · obtain ⟨t', ht'⟩ : ∃ t', t.limitCycle ncpu limit i = some t' := ⟨_, if_neg hzero⟩
    have hgroup := LimitState.limitCycle_group ht'
    have hduty := LimitState.limitCycle_duty ht'
    have husages : ((t.updated i).proclist.map fun id => (m.lists.records.cell id).cpuUsage) =
        (t.updated i).usages := by
      rw [hrecords]
      rfl
    have hfuel : l.count.toNat = (t.updated i).proclist.length := by
      rw [hcount, Int.toNat_natCast]
    have hsleeps_iff : t.Sleeps ncpu limit i ↔
        0 < (t.duty.cycle ncpu limit (t.updated i).usages i.load).tsleep.tvNsec ∨
          0 < (t.duty.cycle ncpu limit (t.updated i).usages i.load).tsleep.tvSec := Iff.rfl
    obtain ⟨h₁, hconts, hm₁⟩ := hmirrors.signalPass hc .cont i.contFails (Nat.lt_add_one _)
    rw [if_neg (by rw [hcount]; exact_mod_cast hzero), hmirrors.lists.members_eq,
      Outcome.orFault_some, Outcome.returned_bind, husages, hfuel, hm.duty_eq]
    dsimp only
    rw [hconts, Outcome.orFault_some, Outcome.returned_bind]
    by_cases hsleeps : t.Sleeps ncpu limit i
    · have hdrop : ∀ (g : ProcessGroup) (node : ℕ), Coherent g → Coherent (g.dropMember node) :=
        fun _ node h => h.dropMember node
      have hc₁ := signalPass_invariant hdrop i.contFails (t.updated i).proclist.length 0 hc
      have hle := length_proclist_signalPass i.contFails (t.updated i)
      obtain ⟨h₂, hstops, hm₂⟩ :=
        hm₁.signalPass hc₁ .stop i.stopFails (Nat.lt_succ_of_le hle)
      rw [if_pos (hsleeps_iff.mp hsleeps), hstops, Outcome.orFault_some, Outcome.returned_bind]
      refine .returned ⟨t', ht', ⟨?_, hduty.symm⟩, ?_⟩
      · rw [hgroup, if_pos hsleeps]
        exact hm₂
      · rw [LimitState.sent, if_pos hsleeps]
    · rw [if_neg (mt hsleeps_iff.mpr hsleeps)]
      refine .returned ⟨t', ht', ⟨?_, hduty.symm⟩, ?_⟩
      · rw [hgroup, if_neg hsleeps]
        exact hm₁
      · rw [LimitState.sent, if_neg hsleeps, List.append_nil]

/-- The loops go together cycle by cycle, and both end at a loop head. -/
theorem cycles_mirrors (ncpu : ℤ) (limit : ℚ) (hm : Mirrors heap s t) (ht : AtHead t.group)
    {inputs : List (Allocator A × CycleInput)} (hv : ∀ i ∈ inputs, ValidScan i.2.yielded) :
    (s.cycles ncpu limit inputs).Delivers fun r =>
      let done := t.cycles ncpu limit (inputs.map Prod.snd)
      r.group.Mirrors heap done.group ∧ AtHead done.group ∧ r.timeSlot = done.timeSlot ∧
        r.quit = done.quit ∧ r.sent = done.sent := by
  induction inputs generalizing s t with
  | nil =>
    have hrecords : s.group.lists.records = t.group.records := by
      obtain ⟨r, him, -⟩ := hm.group.lists
      exact him.records_eq
    rw [cycles, hm.group.lists.members_eq, Outcome.orFault_some, Outcome.returned_bind, hrecords,
      hm.duty_eq]
    refine .returned ⟨hm.group, ht, rfl, rfl, ?_⟩
    rw [List.map_nil, LimitState.cycles, memberPids, List.map_map]
    rfl
  | cons i inputs ih =>
    have hi : ValidScan i.2.yielded := hv i (by simp)
    rw [cycles, List.map_cons, LimitState.cycles, hm.duty_eq]
    refine (limitCycle_mirrors i.1 ncpu limit hm ht.held.coherent.table hi).bind
      fun turn hturn => ?_
    cases turn with
    | inl m =>
      obtain ⟨hnone, hmirrors⟩ := hturn
      rw [hnone]
      exact .returned ⟨hmirrors, atHead_update ht i.2.now hi, rfl, rfl, rfl⟩
    | inr r =>
      obtain ⟨t', hsome, hmirrors, hsent⟩ := hturn
      have ht' : AtHead t'.group := LimitState.limitCycle_invariant
        (fun _ node h => atHead_dropMember node h) hsome (atHead_update ht i.2.now hi)
      rw [hsome]
      refine (ih hmirrors ht' fun j hj => hv j (by simp [hj])).bind fun r' hr' => ?_
      obtain ⟨hgroup, hhead, hslot, hquit, hlater⟩ := hr'
      exact .returned ⟨hgroup, hhead, hslot, hquit, by rw [hsent, hlater]⟩

end MemoryState

/-! ## Whole calls -/

section Calls

open ProcessGroup

variable [DecidableEq A]

/-- What a call of `limit_process` on linked lists has to do with the call without links:
it ends in the same way, it has sent the same signals and freed the same records, and it
leaves nothing allocated, so that the heap of nodes is the one that it found. -/
structure Realizes (heap : Heap A (Option RecordId)) (done : LoopEnd ProcessGroup)
    (r : LoopEnd (HeapGroup A)) : Prop where
  sent : r.sent = done.sent
  quit : r.quit = done.quit
  timeSlot : r.timeSlot = done.timeSlot
  records : done.group.closeProcessGroup = some r.group.records
  heap_eq : r.group.store.heap = heap
  lists : ∀ i, r.group.store.lists i = none

theorem limitProcess_realizes (ncpu : ℤ) (limit : ℚ) (target : Pid) (includeChildren : Bool)
    (start built : Timespec) (alloc : Allocator A) {initial : List Process}
    (hinitial : ValidScan initial) (timeSlot : ℚ) {inputs : List (Allocator A × CycleInput)}
    (hv : ∀ i ∈ inputs, ValidScan i.2.yielded) (heap : Heap A (Option RecordId)) :
    (limitProcess ncpu limit target includeChildren start built alloc initial timeSlot inputs
      heap).Delivers <| Realizes heap <|
        (LimitState.enter target includeChildren start built initial timeSlot).cycles ncpu limit
          (inputs.map Prod.snd) := by
  have hhead : MemoryState.AtHead
      (LimitState.enter target includeChildren start built initial timeSlot).group :=
    MemoryState.atHead_update ⟨(held_fresh target includeChildren start).1,
      bucketsInRange_fresh target includeChildren start⟩ built hinitial
  refine (MemoryGroup.Mirrors.initProcessGroup alloc heap target includeChildren start built
    hinitial.2).bind fun m hm => ?_
  refine (MemoryState.cycles_mirrors ncpu limit (s := ⟨m, Duty.start timeSlot⟩) ⟨hm, rfl⟩ hhead
    hv).bind fun r hr => ?_
  obtain ⟨hgroup, hend, hslot, hquit, hsent⟩ := hr
  obtain ⟨rs, hrs⟩ := Option.isSome_iff_exists.mp hend.held.safe.neverFreed.closes
  obtain ⟨h, hclose, hrecords, hheap, hlists⟩ := hgroup.lists.closeProcessGroup hend.buckets hrs
  rw [hclose, Outcome.orFault_some, Outcome.returned_bind]
  exact .returned ⟨hsent, hquit, hslot, by rw [hrecords]; exact hrs, hheap, hlists⟩

/-- A call of `limit_process` on linked lists commits no fault, whatever `malloc`, the
scans and `kill` answer, and realizes the call without links. -/
theorem limitProcess_delivers (ncpu : ℤ) (limit : ℚ) (target : Pid) (includeChildren : Bool)
    (start built : Timespec) (alloc : Allocator A) {initial : List Process}
    (hinitial : ValidScan initial) (timeSlot : ℚ) {inputs : List (Allocator A × CycleInput)}
    (hv : ∀ i ∈ inputs, ValidScan i.2.yielded) (heap : Heap A (Option RecordId)) :
    let done := (LimitState.enter target includeChildren start built initial timeSlot).cycles
      ncpu limit (inputs.map Prod.snd)
    (limitProcess ncpu limit target includeChildren start built alloc initial timeSlot inputs
      heap).Delivers fun r =>
        r.sent = done.sent ∧ r.quit = done.quit ∧ r.timeSlot = done.timeSlot ∧
          done.group.closeProcessGroup = some r.group.records ∧ r.group.store.heap = heap ∧
            ∀ i, r.group.store.lists i = none :=
  (limitProcess_realizes ncpu limit target includeChildren start built alloc hinitial timeSlot hv
    heap).mono fun _ hr => ⟨hr.sent, hr.quit, hr.timeSlot, hr.records, hr.heap_eq, hr.lists⟩

end Calls

/-! ## Two members in one bucket -/

/-- The lowest of the first sixteen addresses that is not in use. -/
def firstFree : Allocator ℕ where
  node heap := (List.range 16).find? fun a => (heap a).isNone
  granted _ _ := true
  unused heap a ha := by simpa using List.find?_some ha

/-- SIGCONT does not reach the first of the two, and SIGSTOP neither of them. -/
def pairCycle (ms : ℤ) : CycleInput :=
  ⟨⟨0, ms * 1000000⟩, ProcessGroup.collidingScan, none, fun pid => pid = 5, fun _ => true⟩

/-- Node 0 belongs to somebody else, and is there when all others are freed. -/
theorem limitProcess_delivers_pair :
    let heap : Heap ℕ (Option RecordId) := fun a =>
      if a = 0 then some ⟨some 7, none, none⟩ else none
    let call := limitProcess 1 (1 / 2) 5 true ⟨0, 0⟩ ⟨0, 0⟩ firstFree ProcessGroup.collidingScan
      timeSlotBase [(firstFree, pairCycle 30), (firstFree, pairCycle 60)] heap
    call.Delivers (fun r => r.group.store.heap = heap ∧ ∀ i, r.group.store.lists i = none) ∧
      call.result.map LoopEnd.sent = some [(.cont, 5), (.cont, 2053), (.stop, 2053),
        (.cont, 5), (.cont, 2053), (.stop, 2053)] := by
  refine ⟨?_, by decide +kernel⟩
  exact (limitProcess_delivers 1 (1 / 2) 5 true ⟨0, 0⟩ ⟨0, 0⟩ firstFree (by decide) timeSlotBase
    (by decide) _).mono fun r hr => hr.2.2.2.2

end CpuLimit
