import CpuLimit.Platforms

/-!
# A session on Apple

The array holds only the numbers of the processes; each is asked for its record when its
turn comes. A process of the system is passed over, and so is one without a path.
-/
namespace CpuLimit

open Library

namespace Libproc

open Os

variable {os : Os} {system : Pid → Bool} {filter : ProcessFilter} {fuel : ℕ} {it : Iterator}

/-! ## Records -/

/-- The record of a process, as far as its path can be read. -/
def record (os : Os) (system : Pid → Bool) (pid : Pid) : Option Process :=
  ((os.libproc system).pidinfo 0 pid).bind (pti2proc (os.libproc system) 0)

theorem pidinfo_eq (time : ℕ) (pid : Pid) : (os.libproc system).pidinfo time pid =
    ((os.proc pid).filter OsProcess.readable).map (taskallinfo system) := rfl

/-- A process that cannot be read has no record, or one without a path. -/
theorem pidinfo_of_unreadable (system : Pid → Bool) {pid : Pid} (h : os.canRead pid = false)
    (time : ℕ) :
    (os.libproc system).pidinfo time pid = none ∨
      ∃ ti, (os.libproc system).pidinfo time pid = some ti ∧
        ∀ time, pti2proc (os.libproc system) time ti = none := by
  rw [pidinfo_eq]
  cases hshown : (os.proc pid).filter OsProcess.readable with
  | none => exact Or.inl rfl
  | some p =>
    obtain rfl : p.pid = pid := (mem_of_proc (Option.filter_eq_some_iff.mp hshown).1).2
    have hpath : ∀ time, (os.libproc system).pidpath time p.pid = none :=
      fun _ => if_neg (by rw [h]; exact Bool.false_ne_true)
    exact Or.inr ⟨taskallinfo system p, rfl, fun time => congrArg _ (hpath time)⟩

/-- What the calls say of a process that can be read. -/
theorem pidinfo_of_readable (system : Pid → Bool) {pid : Pid} (h : os.canRead pid = true) :
    ∃ ti p, (∀ time, (os.libproc system).pidinfo time pid = some ti) ∧
      ti.procFlagSystem = system pid ∧
      (∀ time, pti2proc (os.libproc system) time ti = some p) ∧ p.pid = pid := by
  cases hshown : (os.proc pid).filter OsProcess.readable with
  | none =>
    rw [canRead_of_none hshown] at h
    cases h
  | some p =>
    obtain rfl : p.pid = pid := (mem_of_proc (Option.filter_eq_some_iff.mp hshown).1).2
    have hpath : ∀ time, (os.libproc system).pidpath time p.pid = some [] := fun _ => if_pos h
    refine ⟨taskallinfo system p, _, fun time => ?_, rfl, fun time => congrArg _ (hpath time), rfl⟩
    rw [pidinfo_eq, hshown, Option.map_some]

/-! ## The walk -/

/-- Only the time differs. -/
def Later (it it' : Iterator) : Prop := ∃ time, it' = { it with time := time }

theorem getppidOf_eq (time : ℕ) (pid : Pid) :
    getppidOf (os.libproc system) time pid = os.queriedPpid pid := by
  rw [getppidOf, pidinfo_eq, queriedPpid]
  cases os.proc pid with
  | none => rfl
  | some p =>
    rw [Option.filter_some]
    cases hr : p.readable <;> simp only [hr] <;> rfl

/-- The walks of the scan have enough fuel. -/
def Walks (os : Os) (filter : ProcessFilter) (fuel : ℕ) : Prop :=
  ∀ pid ∈ os.procs.map OsProcess.pid, ∃ answer,
    Apple.isChildOf os fuel pid filter.pid = some answer ∧
      (answer = true ↔ os.CountsBelow filter.pid pid)

theorem isChildOf_eq {childPid parentPid : Pid} {answer : Bool}
    (h : Apple.isChildOf os fuel childPid parentPid = some answer) :
    ∃ it', Later it it' ∧
      isChildOf (os.libproc system) fuel it childPid parentPid = .returned (answer, it') := by
  rw [Apple.isChildOf] at h
  rw [isChildOf]
  split_ifs at h ⊢ with hguard hone
  · cases h
    exact ⟨it, ⟨it.time, rfl⟩, rfl⟩
  · cases h
    exact ⟨it, ⟨it.time, rfl⟩, rfl⟩
  · refine iterate_climb (fun pid s hs hcond => ?_) (fun pid s hcond => ?_) h ⟨it.time, rfl⟩
    · obtain ⟨time, rfl⟩ := hs
      refine ⟨{ it with time := time + 1 }, ⟨time + 1, rfl⟩, ?_⟩
      dsimp only
      rw [if_pos hcond, getppidOf_eq]
      rfl
    · dsimp only
      rw [if_neg hcond]
      rfl

/-! ## The array -/

noncomputable def select (os : Os) (system : Pid → Bool) (filter : ProcessFilter)
    (pid : Pid) : Option Process :=
  (os.chooses system os.CountsBelow filter pid).bind (record os system)

/-- The array is allocated, and the counter is at `i`. -/
structure At (os : Os) (filter : ProcessFilter) (count i : ℕ) (it : Iterator) : Prop where
  memory_eq : it.memory = .opened
  filter_eq : it.filter = some (some filter)
  pidlist_eq : it.pidlist = some (some (os.procs.map OsProcess.pid))
  count_eq : it.count = some count
  i_eq : it.i = some i

theorem At.later {count i : ℕ} (h : At os filter count i it) {it' : Iterator}
    (hl : Later it it') : At os filter count i it' := by
  obtain ⟨time, rfl⟩ := hl
  exact ⟨h.memory_eq, h.filter_eq, h.pidlist_eq, h.count_eq, h.i_eq⟩

theorem At.counted {count i : ℕ} (h : At os filter count i it) (count' i' : ℕ) :
    At os filter count' i' { it with i := some i', count := some count' } :=
  ⟨h.memory_eq, h.filter_eq, h.pidlist_eq, rfl, rfl⟩

/-- The counter is before the rest of the array. -/
def Before (os : Os) (filter : ProcessFilter) (rest : List Pid) (it : Iterator) : Prop :=
  ∃ i, At os filter os.procs.length i it ∧ (os.procs.map OsProcess.pid).drop i = rest

/-- The counter is at its end. -/
def Ended (os : Os) (filter : ProcessFilter) (it : Iterator) : Prop :=
  ∃ count i, At os filter count i it ∧ count ≤ i

/-- A turn with the array before it. -/
theorem pidTurn_eq (system : Pid → Bool) {i : ℕ} (h : At os filter os.procs.length i it) {pid : Pid}
    (hi : (os.procs.map OsProcess.pid)[i]? = some pid) (hwalks : Walks os filter fuel)
    (hmany : ¬ readsOne filter) :
    ∃ it', At os filter os.procs.length (i + 1) it' ∧
      pidTurn (os.libproc system) fuel filter it =
        .returned (match select os system filter pid with
          | none => .inl it'
          | some p => .inr (some p, it')) := by
  have hlt : ¬ os.procs.length ≤ i := fun hle => by
    rw [List.getElem?_eq_none (by rwa [List.length_map])] at hi
    cases hi
  have hnext : At os filter os.procs.length (i + 1)
      { it with i := some (i + 1), time := it.time + 1 } :=
    ⟨h.memory_eq, h.filter_eq, h.pidlist_eq, h.count_eq, rfl⟩
  rw [pidTurn, readField_of_eq h.i_eq, readField_of_eq h.count_eq]
  dsimp only [Outcome.returned_bind]
  rw [if_neg hlt, pidAt_eq h.pidlist_eq h.memory_eq hi]
  dsimp only [Outcome.returned_bind]
  cases hread : os.canRead pid with
  | false =>
    refine ⟨_, hnext, ?_⟩
    rw [select, chooses_of_unreadable hread]
    rcases pidinfo_of_unreadable system hread it.time with hnone | ⟨ti, hinfo, hproc⟩
    · rw [hnone]
      rfl
    · rw [hinfo]
      dsimp only
      rw [hproc]
      by_cases hsystem : ti.procFlagSystem = true
      · rw [if_pos hsystem]
        rfl
      rw [if_neg hsystem]
      by_cases hzero : filter.pid = 0
      · rw [if_neg (by simp [hzero]), if_pos hzero]
        rfl
      · rw [if_pos ⟨hzero, includeChildren_of_many hmany hzero⟩]
        rfl
  | true =>
    obtain ⟨ti, p, hinfo, hsystem, hproc, hpid⟩ :=
      pidinfo_of_readable system hread
    have hrecord : record os system pid = some p := by
      rw [record, hinfo, Option.bind_some, hproc]
    rw [hinfo, select]
    dsimp only
    rw [hsystem, hproc]
    cases hhidden : system pid with
    | true =>
      rw [if_pos rfl, chooses_of_hidden hhidden]
      exact ⟨_, hnext, rfl⟩
    | false =>
      rw [if_neg Bool.false_ne_true]
      by_cases hzero : filter.pid = 0
      · rw [if_neg (by simp [hzero]), if_pos hzero,
          chooses_of_wanted hhidden hread (Or.inl hzero), Option.bind_some, hrecord]
        exact ⟨_, hnext, rfl⟩
      rw [if_pos ⟨hzero, includeChildren_of_many hmany hzero⟩]
      dsimp only
      rw [hpid]
      by_cases hroot : pid = filter.pid
      · rw [if_pos hroot, chooses_of_wanted hhidden hread (Or.inr (Or.inl hroot)),
          Option.bind_some, hrecord]
        exact ⟨_, hnext, rfl⟩
      · obtain ⟨answer, hanswer, hbelow⟩ := hwalks pid (List.mem_of_getElem? hi)
        obtain ⟨it', hlater, hchild⟩ :
            ∃ it', Later _ it' ∧ isChildOf (os.libproc system) fuel _ _ _ = .returned (_, it') :=
          isChildOf_eq hanswer
        refine ⟨it', hnext.later hlater, ?_⟩
        rw [if_neg hroot, hchild]
        cases answer with
        | true =>
          rw [chooses_of_wanted hhidden hread (Or.inr (Or.inr (hbelow.mp rfl))),
            Option.bind_some, hrecord]
          rfl
        | false =>
          have hnot : ¬ os.CountsBelow filter.pid pid := fun h => Bool.false_ne_true (hbelow.mpr h)
          rw [chooses_of_other (by simp [hzero, hroot, hnot])]
          rfl

theorem visits (hwalks : Walks os filter fuel) (hmany : ¬ readsOne filter) :
    Cursor.Visits (pidTurn (os.libproc system) fuel filter) (select os system filter)
      (Before os filter) (Ended os filter) where
  stop it h := by
    obtain ⟨i, hat, hrest⟩ := h
    have hend : os.procs.length ≤ i := by
      have hle := List.drop_eq_nil_iff.mp hrest
      rwa [List.length_map] at hle
    refine ⟨it, ⟨_, i, hat, hend⟩, ?_⟩
    rw [pidTurn, readField_of_eq hat.i_eq, readField_of_eq hat.count_eq]
    dsimp only [Outcome.returned_bind]
    rw [if_pos hend]
    rfl
  turn pid rest it h := by
    obtain ⟨i, hat, hrest⟩ := h
    obtain ⟨hi, hdrop⟩ := Cursor.getElem?_of_drop hrest
    obtain ⟨it', hat', hturn⟩ := pidTurn_eq system hat hi hwalks hmany
    refine ⟨it', ⟨i + 1, hat', hdrop⟩, ?_⟩
    rw [hturn]
    cases select os system filter pid <;> rfl

/-! ## Calls -/

theorem getNextProcess_ended (h : Ended os filter it) :
    getNextProcess (os.libproc system) fuel it = .returned (none, it) := by
  obtain ⟨count, i, hat, hle⟩ := h
  rw [getNextProcess, readField_of_eq hat.i_eq, readField_of_eq hat.count_eq]
  dsimp only [Outcome.returned_bind]
  rw [if_pos hle]
  rfl

/-- A call of `get_next_process` that has the array before it. -/
theorem getNextProcess_many (hwalks : Walks os filter fuel) (hmany : ¬ readsOne filter)
    (hfuel : os.procs.length < fuel) {l : List Process}
    (h : Cursor.Left (select os system filter) (Before os filter) (Ended os filter) l it) :
    ∃ it', getNextProcess (os.libproc system) fuel it = .returned (l.head?, it') ∧
      Cursor.Left (select os system filter) (Before os filter) (Ended os filter) l.tail it' := by
  rcases h with ⟨rest, ⟨i, hat, hrest⟩, rfl⟩ | ⟨rfl, hended⟩
  · by_cases hle : os.procs.length ≤ i
    · have hnil : rest = [] := by
        rw [← hrest, List.drop_of_length_le (by rwa [List.length_map])]
      have hended : Ended os filter it := ⟨_, i, hat, hle⟩
      exact ⟨it, by rw [getNextProcess_ended hended, hnil]; rfl, Or.inr ⟨by rw [hnil]; rfl, hended⟩⟩
    · have hlength : rest.length < fuel := by
        have hlength := congrArg List.length hrest
        rw [List.length_drop, List.length_map] at hlength
        omega
      rw [getNextProcess, readField_of_eq hat.i_eq, readField_of_eq hat.count_eq,
        filterOf_eq hat.filter_eq]
      dsimp only [Outcome.returned_bind]
      rw [if_neg hle, if_neg (show ¬ (filter.pid ≠ 0 ∧ filter.includeChildren = false) from hmany)]
      exact (visits hwalks hmany).iterate ⟨i, hat, hrest⟩ hlength
  · exact ⟨it, getNextProcess_ended hended, Or.inr ⟨rfl, hended⟩⟩

/-- What is left in the mode for one process. Without processes it is over at once. -/
def LeftOne (os : Os) (system : Pid → Bool) (filter : ProcessFilter) (l : List Process)
    (it : Iterator) : Prop :=
  (At os filter os.procs.length 0 it ∧ l = (record os system filter.pid).toList) ∨
    l = [] ∧ Ended os filter it

theorem getNextProcess_one (hone : readsOne filter) {l : List Process}
    (h : LeftOne os system filter l it) :
    ∃ it', getNextProcess (os.libproc system) fuel it = .returned (l.head?, it') ∧
      LeftOne os system filter l.tail it' := by
  rcases h with ⟨hat, rfl⟩ | ⟨rfl, hended⟩
  · by_cases hle : os.procs.length ≤ 0
    · have hended : Ended os filter it := ⟨_, 0, hat, hle⟩
      have hnil : os.procs = [] := List.eq_nil_of_length_eq_zero (Nat.le_zero.mp hle)
      have hrecord : record os system filter.pid = none := by
        rw [record, pidinfo_eq, Os.proc, hnil]
        rfl
      exact ⟨it, by rw [getNextProcess_ended hended, hrecord]; rfl,
        Or.inr ⟨by rw [hrecord]; rfl, hended⟩⟩
    · have hcall : ((os.libproc system).pidinfo it.time filter.pid).bind
          (pti2proc (os.libproc system) it.time) = record os system filter.pid := rfl
      rw [getNextProcess, readField_of_eq hat.i_eq, readField_of_eq hat.count_eq,
        filterOf_eq hat.filter_eq]
      dsimp only [Outcome.returned_bind]
      rw [if_neg hle, if_pos (show filter.pid ≠ 0 ∧ filter.includeChildren = false from hone),
        hcall]
      cases record os system filter.pid with
      | none =>
        exact ⟨{ it with i := some 0, count := some 0 }, rfl,
          Or.inr ⟨rfl, 0, 0, hat.counted 0 0, le_rfl⟩⟩
      | some p =>
        exact ⟨{ it with i := some 1, count := some 1 }, rfl,
          Or.inr ⟨rfl, 1, 1, hat.counted 1 1, le_rfl⟩⟩
  · exact ⟨it, getNextProcess_ended hended, Or.inr ⟨rfl, hended⟩⟩

theorem closeProcessIterator_closes {count i : ℕ} (h : At os filter count i it) :
    ∃ code it', closeProcessIterator it = .returned (code, it') ∧ it'.memory = .closed := by
  rw [closeProcessIterator, readField_of_eq h.pidlist_eq]
  dsimp only [Outcome.returned_bind]
  rw [closeHandle_of_opened h.memory_eq]
  exact ⟨_, _, rfl, rfl⟩

/-! ## The session -/

/-- The callers see the numbers of the records. -/
theorem backend_next {left : List Process → Iterator → Prop}
    (hnext : ∀ ps it, left ps it → ∃ it',
      getNextProcess (os.libproc system) fuel it = .returned (ps.head?, it') ∧ left ps.tail it')
    (l : List Pid) (it : Iterator) (h : ∃ ps, l = ps.map Process.pid ∧ left ps it) :
    ∃ it', (backend (os.libproc system) filter).next fuel it = .returned (l.head?, it') ∧
      ∃ ps, l.tail = ps.map Process.pid ∧ left ps it' := by
  obtain ⟨ps, rfl, hleft⟩ := h
  obtain ⟨it', heq, hleft'⟩ := hnext ps it hleft
  refine ⟨it', ?_, ps.tail, List.map_tail.symm, hleft'⟩
  rw [backend]
  dsimp only
  rw [heq, List.head?_map]
  rfl

theorem pid_record {pid : Pid} :
    (record os system pid).map Process.pid = if os.canRead pid then some pid else none := by
  cases hread : os.canRead pid with
  | false =>
    rcases pidinfo_of_unreadable system hread 0 with hnone | ⟨ti, hinfo, hproc⟩
    · rw [record, hnone]
      rfl
    · rw [record, hinfo, Option.bind_some, hproc]
      rfl
  | true =>
    obtain ⟨ti, p, hinfo, -, hproc, hpid⟩ :=
      pidinfo_of_readable system hread
    rw [record, hinfo, Option.bind_some, hproc, Option.map_some, hpid]
    rfl

theorem pid_select (pid : Pid) :
    (select os system filter pid).map Process.pid =
      os.chooses system os.CountsBelow filter pid := by
  rw [select]
  by_cases hnone : os.chooses system os.CountsBelow filter pid = none
  · rw [hnone]
    rfl
  · cases hread : os.canRead pid with
    | false => exact absurd (chooses_of_unreadable hread) hnone
    | true => rw [chooses_ne_none hnone, Option.bind_some, pid_record, if_pos hread]

/-- A session on Apple. -/
theorem session_wanted (hwalks : Walks os filter fuel) (hfuel : os.procs.length + 1 < fuel) :
    ∃ it, (backend (os.libproc system) filter).session fuel =
        .returned (os.wanted system os.CountsBelow filter, it) ∧ it.memory = .closed := by
  have hstart : At os filter os.procs.length 0 ⟨some 0, some (os.procs.map OsProcess.pid).length,
      some (some (os.procs.map OsProcess.pid)), some (some filter), .opened, 0⟩ :=
    ⟨rfl, rfl, rfl, by rw [List.length_map], rfl⟩
  have hinit : (backend (os.libproc system) filter).init = .returned (0, _) := rfl
  by_cases hone : readsOne filter
  · rw [wanted, if_pos hone]
    refine Backend.session_yields
      (fun l it => ∃ ps, l = ps.map Process.pid ∧ LeftOne os system filter ps it) hinit
      ⟨_, ?_, Or.inl ⟨hstart, rfl⟩⟩ (backend_next fun ps it => getNextProcess_one hone)
      (fun it h => ?_) ?_
    · rw [← Option.toList_map, pid_record]
      cases hcan : os.canRead filter.pid <;> simp [hcan]
    · obtain ⟨ps, -, ⟨hat, -⟩ | ⟨-, count, i, hat, -⟩⟩ := h
      · exact closeProcessIterator_closes hat
      · exact closeProcessIterator_closes hat
    · exact (List.length_filter_le _ _).trans_lt ((Nat.le_add_left 1 _).trans_lt hfuel)
  · rw [wanted, if_neg hone]
    refine Backend.session_yields
      (fun l it => ∃ ps, l = ps.map Process.pid ∧
        Cursor.Left (select os system filter) (Before os filter) (Ended os filter) ps it) hinit
      ⟨_, ?_, Or.inl ⟨_, ⟨0, hstart, rfl⟩, rfl⟩⟩
      (backend_next fun ps it => getNextProcess_many hwalks hone (Nat.lt_of_succ_lt hfuel))
      (fun it h => ?_) ?_
    · rw [List.map_filterMap]
      exact List.filterMap_congr fun pid _ => (pid_select pid).symm
    · obtain ⟨ps, -, ⟨rest, ⟨i, hat, -⟩, -⟩ | ⟨-, count, i, hat, -⟩⟩ := h
      · exact closeProcessIterator_closes hat
      · exact closeProcessIterator_closes hat
    · refine (List.length_filterMap_le _ _).trans_lt ?_
      rw [List.length_map]
      exact Nat.lt_of_succ_lt hfuel

end Libproc

end CpuLimit
