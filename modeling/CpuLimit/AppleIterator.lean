import CpuLimit.SessionEnds

/-!
# The Apple process iterator

The three functions of `process_iterator_apple.c`. Instead of a descriptor of the system
the iterator owns an array of `pid`s, which is to be used only while it is allocated and
to be freed once. The array is the listing at the beginning; every process in it is asked
for its record when its turn comes.
-/
namespace CpuLimit

open Library

namespace Libproc

/-- `struct proc_taskallinfo`, as far as it is read. -/
structure ProcTaskallinfo where
  pbiPid : Pid
  pbiPpid : Pid
  procFlagSystem : Bool
  ptiTotalUser : ℕ
  ptiTotalSystem : ℕ

/-- What the calls answer. `listing` is the result of the second `sysctl`; `pidinfo` is
`none` for an error and for too few bytes. -/
structure Answers where
  size : Bool
  buffer : Bool
  listing : Option (List Pid)
  pidlist : Bool
  pidinfo : ℕ → Pid → Option ProcTaskallinfo
  pidpath : ℕ → Pid → Option (List Char)

/-- `struct process_iterator`, with the state of the array. -/
structure Iterator where
  i : Option ℕ
  count : Option ℕ
  pidlist : Option (Option (List Pid))
  filter : Option (Option ProcessFilter)
  memory : Handle
  time : ℕ

variable (env : Answers)

/-- Every failure ends the program. -/
def initProcessIterator (filter : ProcessFilter) : Outcome HandleFault (ℤ × Iterator) :=
  if env.size = false then .exited
  else if env.buffer = false then .exited
  else
    match env.listing with
    | none => .exited
    | some pids =>
      if env.pidlist = false then .exited
      else .returned (0, ⟨some 0, some pids.length, some (some pids), some (some filter),
        .opened, 0⟩)

def pti2proc (time : ℕ) (ti : ProcTaskallinfo) : Option Process :=
  (env.pidpath time ti.pbiPid).map fun path =>
    { pid := ti.pbiPid
      ppid := ti.pbiPpid
      cputime := ti.ptiTotalUser / 1000000 + ti.ptiTotalSystem / 1000000
      cpuUsage := 0
      command := path }

def getppidOf (time : ℕ) (pid : Pid) : Pid :=
  match env.pidinfo time pid with
  | none => -1
  | some ti => ti.pbiPpid

/-- `is_child_of`. -/
def isChildOf (fuel : ℕ) (it : Iterator) (childPid parentPid : Pid) :
    Outcome HandleFault (Bool × Iterator) :=
  if childPid ≤ 1 ∨ parentPid ≤ 0 ∨ childPid = parentPid then pure (false, it)
  else if parentPid = 1 then pure (true, it)
  else
    Outcome.iterate (fun s =>
      if 1 < s.1 ∧ s.1 ≠ parentPid then
        pure (.inl (getppidOf env s.2.time s.1, { s.2 with time := s.2.time + 1 }))
      else pure (.inr (decide (s.1 = parentPid), s.2))) fuel (childPid, it)

/-- `it->pidlist[it->i]`. -/
def pidAt (it : Iterator) (i : ℕ) : Outcome HandleFault Pid := do
  let pidlist ← readField it.pidlist
  useHandle .handle it.memory
  match pidlist.bind fun pids => pids[i]? with
  | none => .faulted .outOfBounds
  | some pid => .returned pid

/-- A turn of the loop of `get_next_process`. -/
def pidTurn (fuel : ℕ) (filter : ProcessFilter) (it : Iterator) :
    Outcome HandleFault (Iterator ⊕ (Option Process × Iterator)) := do
  let i ← readField it.i
  let count ← readField it.count
  if count ≤ i then pure (.inr (none, it))
  else
    let pid ← pidAt it i
    let next := { it with i := some (i + 1), time := it.time + 1 }
    match env.pidinfo it.time pid with
    | none => pure (.inl next)
    | some ti =>
      if ti.procFlagSystem then pure (.inl next)
      else if filter.pid ≠ 0 ∧ filter.includeChildren then
        match pti2proc env next.time ti with
        | none => pure (.inl next)
        | some p =>
          if p.pid = filter.pid then pure (.inr (some p, next))
          else
            let (child, next) ← isChildOf env fuel next p.pid filter.pid
            pure (if child then .inr (some p, next) else .inl next)
      else if filter.pid = 0 then
        match pti2proc env next.time ti with
        | none => pure (.inl next)
        | some p => pure (.inr (some p, next))
      else pure (.inl it)

/-- The filter that the iterator points to. -/
def filterOf (it : Iterator) : Outcome HandleFault ProcessFilter := do
  let filter ← readField it.filter
  readField filter

/-- `get_next_process`; `none` is the result -1. -/
def getNextProcess (fuel : ℕ) (it : Iterator) :
    Outcome HandleFault (Option Process × Iterator) := do
  let i ← readField it.i
  let count ← readField it.count
  if count ≤ i then pure (none, it)
  else
    let filter ← filterOf it
    if filter.pid ≠ 0 ∧ filter.includeChildren = false then
      match (env.pidinfo it.time filter.pid).bind (pti2proc env it.time) with
      | none => pure (none, { it with i := some 0, count := some 0 })
      | some p => pure (some p, { it with i := some 1, count := some 1 })
    else Outcome.iterate (pidTurn env fuel filter) fuel it

/-- `close_process_iterator`. To free a null pointer does nothing. -/
def closeProcessIterator (it : Iterator) : Outcome HandleFault (ℤ × Iterator) := do
  match ← readField it.pidlist with
  | none => pure (0, ⟨some 0, some 0, some none, some none, it.memory, it.time⟩)
  | some _ =>
    let memory ← closeHandle .handle it.memory
    pure (0, ⟨some 0, some 0, some none, some none, memory, it.time⟩)

def backend (filter : ProcessFilter) : Backend Iterator where
  init := initProcessIterator env filter
  next fuel it := do
    let (p, it) ← getNextProcess env fuel it
    pure (p.map Process.pid, it)
  close := closeProcessIterator
  handle := Iterator.memory

variable {env} {filter : ProcessFilter} {it : Iterator}

/-! ## Safety -/

/-- The array is allocated and the counter stays within it. -/
structure Live (it : Iterator) : Prop where
  i_set : it.i ≠ none
  counted : ∃ pids count, it.pidlist = some (some pids) ∧ it.count = some count ∧
    count ≤ pids.length
  filter_set : ∃ filter, it.filter = some (some filter)
  opened : it.memory = .opened

/-- What `close_process_iterator` leaves. -/
structure Closed (it : Iterator) : Prop where
  i_eq : it.i = some 0
  count_eq : it.count = some 0
  pidlist_eq : it.pidlist = some none
  freed : it.memory ≠ .opened

theorem Live.advance (h : Live it) (i time : ℕ) : Live { it with i := some i, time := time } :=
  ⟨by simp, h.counted, h.filter_set, h.opened⟩

theorem Live.later (h : Live it) (time : ℕ) : Live { it with time := time } :=
  ⟨h.i_set, h.counted, h.filter_set, h.opened⟩

theorem pidAt_eq {pids : List Pid} (hpids : it.pidlist = some (some pids))
    (hopen : it.memory = .opened) {i : ℕ} {pid : Pid} (hi : pids[i]? = some pid) :
    pidAt it i = .returned pid := by
  rw [pidAt, readField_of_eq hpids, useHandle_of_opened hopen]
  simp only [Outcome.returned_bind, Option.bind_some, hi]

theorem filterOf_eq (hfilter : it.filter = some (some filter)) :
    filterOf it = .returned filter := by
  rw [filterOf, readField_of_eq hfilter]
  rfl

/-- A walk only takes time. -/
theorem isChildOf_meets (fuel : ℕ) (h : Live it) (childPid parentPid : Pid) :
    (isChildOf env fuel it childPid parentPid).Meets fun s => Live s.2 := by
  rw [isChildOf]
  split_ifs
  · exact h
  · exact h
  · refine Outcome.meets_iterate (fun s (hs : Live s.2) => ?_) fuel h
    split_ifs
    · exact hs.later _
    · exact hs

theorem live_pidTurn (fuel : ℕ) (filter : ProcessFilter) (h : Live it) :
    (pidTurn env fuel filter it).Meets (Sum.elim Live fun s => Live s.2) := by
  obtain ⟨pids, count, hpids, hcount, hle⟩ := h.counted
  obtain ⟨i, hi⟩ := Option.ne_none_iff_exists'.mp h.i_set
  rw [pidTurn, readField_of_eq hi, readField_of_eq hcount]
  dsimp only [Outcome.returned_bind]
  by_cases hend : count ≤ i
  · rw [if_pos hend]
    exact h
  have hlt : i < pids.length := (not_le.mp hend).trans_le hle
  have hnext := h.advance (i + 1) (it.time + 1)
  rw [if_neg hend, pidAt_eq hpids h.opened (List.getElem?_eq_getElem hlt)]
  dsimp only [Outcome.returned_bind]
  split
  · exact hnext
  · split
    · exact hnext
    · split
      · split
        · exact hnext
        · split
          · exact hnext
          · refine (isChildOf_meets fuel hnext _ _).bind fun s hs => ?_
            cases s.1 <;> exact hs
      · split
        · split <;> exact hnext
        · exact h

theorem live_getNextProcess (fuel : ℕ) (h : Live it) :
    (getNextProcess env fuel it).Meets fun s => Live s.2 := by
  obtain ⟨pids, count, hpids, hcount, hle⟩ := h.counted
  obtain ⟨i, hi⟩ := Option.ne_none_iff_exists'.mp h.i_set
  obtain ⟨filter, hfilter⟩ := h.filter_set
  rw [getNextProcess, readField_of_eq hi, readField_of_eq hcount, filterOf_eq hfilter]
  dsimp only [Outcome.returned_bind]
  by_cases hend : count ≤ i
  · rw [if_pos hend]
    exact h
  rw [if_neg hend]
  have hpos : 1 ≤ pids.length := (Nat.one_le_of_lt (not_le.mp hend)).trans hle
  split
  · split
    · exact ⟨by simp, ⟨pids, 0, hpids, rfl, Nat.zero_le _⟩, ⟨filter, hfilter⟩, h.opened⟩
    · exact ⟨by simp, ⟨pids, 1, hpids, rfl, hpos⟩, ⟨filter, hfilter⟩, h.opened⟩
  · exact Outcome.meets_iterate (fun t => live_pidTurn fuel filter) fuel h

/-- After `close_process_iterator` the next call reports the end. -/
theorem getNextProcess_of_closed (fuel : ℕ) (h : Closed it) :
    getNextProcess env fuel it = .returned (none, it) := by
  rw [getNextProcess, readField_of_eq h.i_eq, readField_of_eq h.count_eq]
  rfl

theorem closed_closeProcessIterator (h : Live it ∨ Closed it) :
    ∃ it', closeProcessIterator it = .returned (0, it') ∧ Closed it' := by
  rcases h with h | h
  · obtain ⟨pids, count, hpids, -⟩ := h.counted
    rw [closeProcessIterator, readField_of_eq hpids]
    dsimp only [Outcome.returned_bind]
    rw [closeHandle_of_opened h.opened]
    exact ⟨_, rfl, ⟨rfl, rfl, rfl, by simp⟩⟩
  · rw [closeProcessIterator, readField_of_eq h.pidlist_eq]
    exact ⟨_, rfl, ⟨rfl, rfl, rfl, h.freed⟩⟩

theorem live_initProcessIterator (env : Answers) (filter : ProcessFilter) :
    (initProcessIterator env filter).Meets fun s => s.1 = 0 ∧ Live s.2 := by
  unfold initProcessIterator
  cases env.listing with
  | none => split_ifs <;> trivial
  | some pids =>
    dsimp only
    split_ifs
    · trivial
    · trivial
    · trivial
    · exact ⟨rfl, by simp, ⟨pids, pids.length, rfl, rfl, le_rfl⟩, ⟨filter, rfl⟩, rfl⟩

end Libproc

end CpuLimit
