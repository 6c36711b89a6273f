import CpuLimit.Platforms

/-!
# A session on FreeBSD

The array of processes is complete from the beginning. Processes of the system are passed
over; the walk towards the roots asks through the descriptor of the iterator.
-/
namespace CpuLimit

open Library

namespace Kvm

open Os

variable {os : Os} {system : Pid → Bool} {filter : ProcessFilter} {fuel : ℕ} {it : Iterator}

theorem getppidOf_eq (hopen : it.descriptor = .opened) (pid : Pid) :
    getppidOf (os.kvm system) .handle it pid = .returned (os.queriedPpid pid) := by
  rw [getppidOf, useHandle_of_opened hopen]
  dsimp only [Outcome.returned_bind]
  have hprocess : (os.kvm system).process it.time pid =
      ((os.proc pid).filter OsProcess.readable).map (kinfo system) := rfl
  rw [hprocess, queriedPpid]
  cases os.proc pid with
  | none => rfl
  | some p =>
    rw [Option.filter_some]
    cases hr : p.readable <;> simp only [hr] <;> rfl

/-- Only the time differs. -/
def Later (it it' : Iterator) : Prop := ∃ time, it' = { it with time := time }

/-- The walks of the scan have enough fuel. -/
def Walks (os : Os) (filter : ProcessFilter) (fuel : ℕ) : Prop :=
  ∀ pid ∈ os.procs.map OsProcess.pid, ∃ answer,
    Freebsd.isChildOfOpen os fuel pid filter.pid = some answer ∧
      (answer = true ↔ os.Below filter.pid pid)

theorem isChildOf_eq (hopen : it.descriptor = .opened) {childPid parentPid : Pid} {answer : Bool}
    (h : Freebsd.isChildOfOpen os fuel childPid parentPid = some answer) :
    ∃ it', Later it it' ∧
      isChildOf (os.kvm system) fuel .handle it childPid parentPid = .returned (answer, it') := by
  rw [Freebsd.isChildOfOpen] at h
  rw [isChildOf]
  split_ifs at h ⊢ with hguard
  · cases h
    exact ⟨it, ⟨it.time, rfl⟩, rfl⟩
  · refine iterate_climb (fun pid s hs hcond => ?_) (fun pid s hcond => ?_) h ⟨it.time, rfl⟩
    · obtain ⟨time, rfl⟩ := hs
      have hppid : getppidOf (os.kvm system) .handle { it with time := time } pid = _ :=
        getppidOf_eq hopen pid
      refine ⟨{ it with time := time + 1 }, ⟨time + 1, rfl⟩, ?_⟩
      dsimp only
      rw [if_pos hcond, hppid]
      rfl
    · dsimp only
      rw [if_neg hcond]
      rfl

/-- The processes of the array, in turn. -/
def array (os : Os) (system : Pid → Bool) : List KinfoProc :=
  (os.procs.filter OsProcess.readable).map (kinfo system)

noncomputable def select (os : Os) (system : Pid → Bool) (filter : ProcessFilter)
    (kproc : KinfoProc) : Option Pid :=
  os.chooses system os.Below filter kproc.kiPid

/-- The descriptor is open, and the counter is at `i`. -/
structure At (os : Os) (system : Pid → Bool) (filter : ProcessFilter) (count : ℕ) (i : ℕ)
    (it : Iterator) : Prop where
  kd_eq : it.kd = some .handle
  opened : it.descriptor = .opened
  filter_eq : it.filter = some filter
  procs_eq : it.procs = some (some (array os system))
  count_eq : it.count = some count
  i_eq : it.i = some i

theorem At.later {count i : ℕ} (h : At os system filter count i it) {it' : Iterator}
    (hl : Later it it') : At os system filter count i it' := by
  obtain ⟨time, rfl⟩ := hl
  exact ⟨h.kd_eq, h.opened, h.filter_eq, h.procs_eq, h.count_eq, h.i_eq⟩

theorem At.counted {count i : ℕ} (h : At os system filter count i it) (count' i' : ℕ) :
    At os system filter count' i' { it with i := some i', count := some count' } :=
  ⟨h.kd_eq, h.opened, h.filter_eq, h.procs_eq, rfl, rfl⟩

/-- The counter is before the rest of the array. -/
def Before (os : Os) (system : Pid → Bool) (filter : ProcessFilter) (rest : List KinfoProc)
    (it : Iterator) : Prop :=
  ∃ i, At os system filter (array os system).length i it ∧ (array os system).drop i = rest

/-- The counter is at its end. -/
def Ended (os : Os) (system : Pid → Bool) (filter : ProcessFilter) (it : Iterator) : Prop :=
  ∃ count i, At os system filter count i it ∧ count ≤ i

/-- A turn with the array before it. -/
theorem procTurn_eq {i : ℕ} (h : At os system filter (array os system).length i it)
    {kproc : KinfoProc} (hi : (array os system)[i]? = some kproc)
    (hwalks : Walks os filter fuel) (hmany : ¬ readsOne filter)
    (hpid : kproc.kiPid ∈ os.procs.map OsProcess.pid)
    (hsystem : kproc.pSystem = system kproc.kiPid) :
    ∃ it', At os system filter (array os system).length (i + 1) it' ∧
      procTurn (os.kvm system) fuel filter it = .returned (match select os system filter kproc with
        | none => .inl it'
        | some pid => .inr (some pid, it')) := by
  have hlt : ¬ (array os system).length ≤ i :=
    fun hle => by rw [List.getElem?_eq_none hle] at hi; cases hi
  have hnext : At os system filter (array os system).length (i + 1)
      { it with i := some (i + 1), time := it.time + 1 } :=
    ⟨h.kd_eq, h.opened, h.filter_eq, h.procs_eq, h.count_eq, rfl⟩
  have hprocAt : procAt (some (array os system)) i = .returned kproc := by
    rw [procAt, Option.bind_some, hi]
  have hconvert : kproc2proc (os.kvm system) .handle
      { it with i := some (i + 1), time := it.time + 1 } kproc =
        .returned (if os.canRead kproc.kiPid then some kproc.kiPid else none) := by
    rw [kproc2proc, useHandle_of_opened hnext.opened]
    rfl
  rw [procTurn, readField_of_eq h.i_eq, readField_of_eq h.count_eq]
  dsimp only [Outcome.returned_bind]
  rw [if_neg (by exact_mod_cast hlt), readField_of_eq h.procs_eq, readField_of_eq h.kd_eq]
  dsimp only [Outcome.returned_bind]
  rw [hprocAt]
  dsimp only [Outcome.returned_bind]
  rw [hsystem, hconvert, select]
  dsimp only [Outcome.returned_bind]
  cases hhidden : system kproc.kiPid with
  | true =>
    rw [if_pos rfl, chooses_of_hidden hhidden]
    exact ⟨_, hnext, rfl⟩
  | false =>
    rw [if_neg Bool.false_ne_true]
    cases hread : os.canRead kproc.kiPid with
    | false =>
      rw [chooses_of_unreadable hread]
      refine ⟨_, hnext, ?_⟩
      by_cases hzero : filter.pid = 0
      · rw [if_neg (by simp [hzero]), if_pos hzero]
        rfl
      · rw [if_pos ⟨hzero, includeChildren_of_many hmany hzero⟩]
        rfl
    | true =>
      by_cases hzero : filter.pid = 0
      · rw [if_neg (by simp [hzero]), if_pos hzero,
          chooses_of_wanted hhidden hread (Or.inl hzero)]
        exact ⟨_, hnext, rfl⟩
      rw [if_pos ⟨hzero, includeChildren_of_many hmany hzero⟩]
      by_cases hroot : kproc.kiPid = filter.pid
      · rw [chooses_of_wanted hhidden hread (Or.inr (Or.inl hroot))]
        refine ⟨_, hnext, ?_⟩
        simp only [if_true, hroot, Outcome.pure_eq]
      · obtain ⟨answer, hanswer, hbelow⟩ := hwalks kproc.kiPid hpid
        obtain ⟨it', hlater, hchild⟩ :
            ∃ it', Later _ it' ∧
              isChildOf (os.kvm system) fuel .handle _ _ _ = .returned (_, it') :=
          isChildOf_eq hnext.opened hanswer
        refine ⟨it', hnext.later hlater, ?_⟩
        simp only [if_true, Outcome.returned_bind, if_neg hroot, hchild, Outcome.pure_eq]
        cases answer with
        | true => rw [chooses_of_wanted hhidden hread (Or.inr (Or.inr (hbelow.mp rfl)))]; rfl
        | false =>
          have hnot : ¬ os.Below filter.pid kproc.kiPid :=
            fun h => Bool.false_ne_true (hbelow.mpr h)
          rw [chooses_of_other (by simp [hzero, hroot, hnot])]
          rfl

theorem mem_array {kproc : KinfoProc} (h : kproc ∈ array os system) :
    kproc.kiPid ∈ os.procs.map OsProcess.pid ∧ kproc.pSystem = system kproc.kiPid := by
  obtain ⟨p, hp, rfl⟩ := List.mem_map.mp h
  exact ⟨List.mem_map_of_mem (List.mem_filter.mp hp).1, rfl⟩

theorem visits (hwalks : Walks os filter fuel) (hmany : ¬ readsOne filter) :
    Cursor.Visits (procTurn (os.kvm system) fuel filter) (select os system filter)
      (Before os system filter) (Ended os system filter) where
  stop it h := by
    obtain ⟨i, hat, hrest⟩ := h
    have hend := List.drop_eq_nil_iff.mp hrest
    refine ⟨it, ⟨_, i, hat, hend⟩, ?_⟩
    rw [procTurn, readField_of_eq hat.i_eq, readField_of_eq hat.count_eq]
    dsimp only [Outcome.returned_bind]
    rw [if_pos (by exact_mod_cast hend)]
    rfl
  turn kproc rest it h := by
    obtain ⟨i, hat, hrest⟩ := h
    obtain ⟨hi, hdrop⟩ := Cursor.getElem?_of_drop hrest
    obtain ⟨hpid, hsystem⟩ := mem_array (List.mem_of_getElem? hi)
    obtain ⟨it', hat', hturn⟩ := procTurn_eq hat hi hwalks hmany hpid hsystem
    refine ⟨it', ⟨i + 1, hat', hdrop⟩, ?_⟩
    rw [hturn]
    cases select os system filter kproc <;> rfl

theorem getNextProcess_ended (h : Ended os system filter it) :
    getNextProcess (os.kvm system) fuel it = .returned (none, it) := by
  obtain ⟨count, i, hat, hle⟩ := h
  rw [getNextProcess, readField_of_eq hat.i_eq, readField_of_eq hat.count_eq]
  dsimp only [Outcome.returned_bind]
  rw [if_pos (by exact_mod_cast hle)]
  rfl

/-- A call of `get_next_process` that has the array before it. -/
theorem getNextProcess_many (hwalks : Walks os filter fuel) (hmany : ¬ readsOne filter)
    (hfuel : os.procs.length < fuel) {l : List Pid}
    (h : Cursor.Left (select os system filter) (Before os system filter)
      (Ended os system filter) l it) :
    ∃ it', getNextProcess (os.kvm system) fuel it = .returned (l.head?, it') ∧
      Cursor.Left (select os system filter) (Before os system filter) (Ended os system filter)
        l.tail it' := by
  have harray : (array os system).length ≤ os.procs.length := by
    rw [array, List.length_map]
    exact List.length_filter_le _ _
  rcases h with ⟨rest, ⟨i, hat, hrest⟩, rfl⟩ | ⟨rfl, hended⟩
  · by_cases hle : (array os system).length ≤ i
    · have hnil : rest = [] := by rw [← hrest, List.drop_of_length_le hle]
      have hended : Ended os system filter it := ⟨_, i, hat, hle⟩
      exact ⟨it, by rw [getNextProcess_ended hended, hnil]; rfl, Or.inr ⟨by rw [hnil]; rfl, hended⟩⟩
    · have hlength : rest.length < fuel := by
        have hlength := congrArg List.length hrest
        rw [List.length_drop] at hlength
        omega
      rw [getNextProcess, readField_of_eq hat.i_eq, readField_of_eq hat.count_eq,
        readField_of_eq hat.filter_eq]
      dsimp only [Outcome.returned_bind]
      rw [if_neg (by exact_mod_cast hle),
        if_neg (show ¬ (filter.pid ≠ 0 ∧ filter.includeChildren = false) from hmany)]
      exact (visits hwalks hmany).iterate ⟨i, hat, hrest⟩ hlength
  · exact ⟨it, getNextProcess_ended hended, Or.inr ⟨rfl, hended⟩⟩

theorem canRead_of_array_nil (h : array os system = []) (pid : Pid) : os.canRead pid = false := by
  refine canRead_of_none (Option.eq_none_iff_forall_ne_some.mpr fun p hp => ?_)
  obtain ⟨hproc, hreadable⟩ := Option.filter_eq_some_iff.mp hp
  have hmem : p ∈ os.procs.filter OsProcess.readable :=
    List.mem_filter.mpr ⟨(mem_of_proc hproc).1, hreadable⟩
  rw [List.map_eq_nil_iff.mp h] at hmem
  exact List.not_mem_nil hmem

/-- What is left in the mode for one process. Without processes it is over at once. -/
def LeftOne (os : Os) (system : Pid → Bool) (filter : ProcessFilter) (l : List Pid)
    (it : Iterator) : Prop :=
  (At os system filter (array os system).length 0 it ∧ l = [filter.pid].filter os.canRead) ∨
    l = [] ∧ Ended os system filter it

theorem getSingleProcess_eq (hopen : it.descriptor = .opened) (pid : Pid) :
    getSingleProcess (os.kvm system) .handle it pid =
      .returned (if os.canRead pid then some pid else none) := by
  rw [getSingleProcess, useHandle_of_opened hopen]
  dsimp only [Outcome.returned_bind]
  have hprocess : (os.kvm system).process it.time pid =
      ((os.proc pid).filter OsProcess.readable).map (kinfo system) := rfl
  rw [hprocess]
  cases hshown : (os.proc pid).filter OsProcess.readable with
  | none =>
    rw [canRead_of_none hshown]
    rfl
  | some p =>
    have hpid : p.pid = pid := (mem_of_proc (Option.filter_eq_some_iff.mp hshown).1).2
    dsimp only [Option.map_some]
    rw [kproc2proc, useHandle_of_opened hopen]
    rw [← hpid]
    rfl

theorem getNextProcess_one (hone : readsOne filter) {l : List Pid}
    (h : LeftOne os system filter l it) :
    ∃ it', getNextProcess (os.kvm system) fuel it = .returned (l.head?, it') ∧
      LeftOne os system filter l.tail it' := by
  rcases h with ⟨hat, rfl⟩ | ⟨rfl, hended⟩
  · by_cases hle : (array os system).length ≤ 0
    · have hended : Ended os system filter it := ⟨_, 0, hat, by exact_mod_cast hle⟩
      have hcan : os.canRead filter.pid = false :=
        canRead_of_array_nil (List.eq_nil_of_length_eq_zero (Nat.le_zero.mp hle)) filter.pid
      exact ⟨it, by rw [getNextProcess_ended hended]; simp [hcan],
        Or.inr ⟨by simp [hcan], hended⟩⟩
    · rw [getNextProcess, readField_of_eq hat.i_eq, readField_of_eq hat.count_eq,
        readField_of_eq hat.filter_eq, readField_of_eq hat.kd_eq]
      dsimp only [Outcome.returned_bind]
      rw [if_neg (by exact_mod_cast hle),
        if_pos (show filter.pid ≠ 0 ∧ filter.includeChildren = false from hone),
        getSingleProcess_eq hat.opened]
      cases hcan : os.canRead filter.pid with
      | false =>
        exact ⟨{ it with i := some 0, count := some 0 }, by simp [hcan],
          Or.inr ⟨by simp [hcan], 0, 0, hat.counted 0 0, le_rfl⟩⟩
      | true =>
        exact ⟨{ it with i := some 1, count := some 1 }, by simp [hcan],
          Or.inr ⟨by simp [hcan], 1, 1, hat.counted 1 1, le_rfl⟩⟩
  · exact ⟨it, getNextProcess_ended hended, Or.inr ⟨rfl, hended⟩⟩

theorem closeProcessIterator_closes {count i : ℕ} (h : At os system filter count i it) :
    ∃ code it', closeProcessIterator (os.kvm system) it = .returned (code, it') ∧
      it'.descriptor = .closed := by
  rw [closeProcessIterator, readField_of_eq h.procs_eq, readField_of_eq h.kd_eq]
  dsimp only [Outcome.returned_bind]
  rw [closeHandle_of_opened h.opened]
  exact ⟨_, _, rfl, rfl⟩

/-- The array holds all that the filter can ask for. -/
theorem filterMap_array (hdistinct : (os.procs.map OsProcess.pid).Nodup) :
    (os.procs.map OsProcess.pid).filterMap (os.chooses system os.Below filter) =
      (array os system).filterMap (select os system filter) := by
  have hprocs : ∀ p ∈ os.procs, os.chooses system os.Below filter p.pid =
      if p.readable = true then os.chooses system os.Below filter p.pid else none := by
    intro p hp
    split_ifs with hreadable
    · rfl
    · refine chooses_of_unreadable (canRead_of_none ?_)
      rw [proc_of_mem hdistinct hp, Option.filter_some, if_neg hreadable]
  rw [array, List.filterMap_map, List.filterMap_map, List.filterMap_filter]
  exact List.filterMap_congr hprocs

/-- A session on FreeBSD. -/
theorem session_wanted (hdistinct : (os.procs.map OsProcess.pid).Nodup)
    (hwalks : Walks os filter fuel) (hfuel : os.procs.length + 1 < fuel) :
    ∃ it, (backend (os.kvm system) filter).session fuel =
        .returned (os.wanted system os.Below filter, it) ∧ it.descriptor = .closed := by
  have hstart : At os system filter (array os system).length 0
      ⟨some .handle, some (some (array os system)), some (array os system).length, some 0,
        some filter, .opened, 0⟩ := ⟨rfl, rfl, rfl, rfl, rfl, rfl⟩
  have hinit : (backend (os.kvm system) filter).init = .returned (0, _) := rfl
  by_cases hone : readsOne filter
  · rw [wanted, if_pos hone]
    refine Backend.session_yields (LeftOne os system filter) hinit (Or.inl ⟨hstart, rfl⟩)
      (fun l it => getNextProcess_one hone) (fun it h => ?_) ?_
    · rcases h with ⟨hat, -⟩ | ⟨-, count, i, hat, -⟩
      · exact closeProcessIterator_closes hat
      · exact closeProcessIterator_closes hat
    · exact (List.length_filter_le _ _).trans_lt ((Nat.le_add_left 1 _).trans_lt hfuel)
  · rw [wanted, if_neg hone]
    refine Backend.session_yields
      (Cursor.Left (select os system filter) (Before os system filter) (Ended os system filter))
      hinit (Or.inl ⟨array os system, ⟨0, hstart, rfl⟩, filterMap_array hdistinct⟩)
      (fun l it => getNextProcess_many hwalks hone (Nat.lt_of_succ_lt hfuel)) (fun it h => ?_) ?_
    · rcases h with ⟨rest, ⟨i, hat, -⟩, -⟩ | ⟨-, count, i, hat, -⟩
      · exact closeProcessIterator_closes hat
      · exact closeProcessIterator_closes hat
    · refine (List.length_filterMap_le _ _).trans_lt ?_
      rw [List.length_map]
      exact Nat.lt_of_succ_lt hfuel

end Kvm

end CpuLimit
