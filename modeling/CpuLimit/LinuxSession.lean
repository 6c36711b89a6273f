import CpuLimit.Platforms

/-!
# A session on Linux

The iterator reads /proc once, entry by entry, and tests every process when it comes to its
directory.
-/
namespace CpuLimit

open Library Library.Scanf

namespace Procfs

open Os

variable {os : Os} {filter : ProcessFilter} {entries : List ProcEntry} {fuel : ℕ}

noncomputable def select (os : Os) (filter : ProcessFilter) (entry : ProcEntry) : Option Pid :=
  entry.pid.bind (os.chooses (fun _ => false) os.CountsBelow filter)

/-- The stream is open before these entries. -/
structure Before (entries : List ProcEntry) (filter : ProcessFilter) (rest : List ProcEntry)
    (it : Iterator) : Prop where
  dip_eq : it.dip = some .handle
  opened : it.stream = .opened
  filter_eq : it.filter = some filter
  rest_eq : entries.drop it.time = rest

def Ended (it : Iterator) : Prop := it.dip = some .null ∧ it.stream = .closed

theorem readdirTurn_of_none {env : Answers} {it : Iterator} (hdip : it.dip = some .handle)
    (hopen : it.stream = .opened) (hnone : env.readdir it.time = none) :
    readdirTurn env filter it =
      .returned (.inr (none, ⟨some .null, it.filter, .closed, it.time + 1⟩)) := by
  have hclose : closeStream { it with time := it.time + 1 } = .returned _ :=
    closeStream_eq hdip hopen
  rw [readdirTurn, readField_of_eq hdip]
  dsimp only [Outcome.returned_bind]
  rw [useHandle_of_opened hopen]
  dsimp only [Outcome.returned_bind]
  rw [hnone]
  dsimp only
  rw [hclose]
  rfl

/-- An entry that is not the directory of a process is passed over. -/
theorem readdirTurn_other {env : Answers} {it : Iterator} (hdip : it.dip = some .handle)
    (hopen : it.stream = .opened) {dit : Dirent} (hdit : env.readdir it.time = some dit)
    (hskipped : dit.isDir = false ∨ isNumeric dit.dName = false) :
    readdirTurn env filter it = .returned (.inl { it with time := it.time + 1 }) := by
  rw [readdirTurn, readField_of_eq hdip]
  dsimp only [Outcome.returned_bind]
  rw [useHandle_of_opened hopen]
  dsimp only [Outcome.returned_bind]
  rw [hdit]
  dsimp only
  by_cases hdir : dit.isDir = false
  · rw [if_pos hdir]
    rfl
  · rw [if_neg hdir, if_pos (Or.inl (hskipped.resolve_left hdir))]
    rfl

/-- The directory of a process is tested and read under its number. -/
theorem readdirTurn_process {env : Answers} {it : Iterator} (hdip : it.dip = some .handle)
    (hopen : it.stream = .opened) {pid : Pid} (range : 0 < pid ∧ pid < 2147483648)
    (hdit : env.readdir it.time = some ⟨decimal pid, true⟩) :
    readdirTurn env filter it = .returned (
      if filter.pid ≠ 0 ∧ filter.pid ≠ pid ∧ env.isChildOf it.time pid filter.pid = false ∨
        env.readProcessInfo it.time pid = false then .inl { it with time := it.time + 1 }
      else .inr (some pid, { it with time := it.time + 1 })) := by
  have hname : ¬ (isNumeric (decimal pid) = false ∨ pid ≤ 0) := by
    rw [isNumeric_decimal range.1]
    simp [range.1]
  rw [readdirTurn, readField_of_eq hdip]
  dsimp only [Outcome.returned_bind]
  rw [useHandle_of_opened hopen]
  dsimp only [Outcome.returned_bind]
  rw [hdit]
  dsimp only
  rw [toPid_atol_decimal range, if_neg (by simp), if_neg hname]
  by_cases hchild : filter.pid ≠ 0 ∧ filter.pid ≠ pid ∧
      env.isChildOf it.time pid filter.pid = false
  · rw [if_pos hchild, if_pos (Or.inl hchild)]
    rfl
  · by_cases hread : env.readProcessInfo it.time pid = false
    · rw [if_neg hchild, if_pos hread, if_pos (Or.inr hread)]
      rfl
    · rw [if_neg hchild, if_neg hread, if_neg (not_or.mpr ⟨hchild, hread⟩)]
      rfl

/-- The walks of the scan have enough fuel. -/
def Walks (os : Os) (filter : ProcessFilter) (fuel : ℕ) : Prop :=
  ∀ pid ∈ os.procs.map OsProcess.pid, ∃ answer,
    os.isChildOf fuel pid filter.pid = some answer ∧ (answer = true ↔ os.CountsBelow filter.pid pid)

/-- What the loop does with a process is what the filter asks for. -/
theorem refused_iff (hwalks : Walks os filter fuel) {pid : Pid}
    (hpid : pid ∈ os.procs.map OsProcess.pid) (now : ℕ) :
    ((filter.pid ≠ 0 ∧ filter.pid ≠ pid ∧
        (os.procfs entries fuel).isChildOf now pid filter.pid = false) ∨
      (os.procfs entries fuel).readProcessInfo now pid = false) ↔
        os.chooses (fun _ => false) os.CountsBelow filter pid = none := by
  obtain ⟨answer, hanswer, hbelow⟩ := hwalks pid hpid
  have hchild : (os.procfs entries fuel).isChildOf now pid filter.pid = answer := by
    change (os.isChildOf fuel pid filter.pid).getD false = _
    rw [hanswer, Option.getD_some]
  have hread : (os.procfs entries fuel).readProcessInfo now pid = os.canRead pid := rfl
  rw [hchild, hread, chooses_eq_none, ← hbelow]
  cases os.canRead pid with
  | false => simp
  | true => simp [not_or, eq_comm]

theorem visits (hentries : ProcEntry.pids entries = os.procs.map OsProcess.pid)
    (hwalks : Walks os filter fuel) :
    Cursor.Visits (readdirTurn (os.procfs entries fuel) filter) (select os filter)
      (Before entries filter) Ended where
  stop it h := by
    have hend : (os.procfs entries fuel).readdir it.time = none := by
      change (entries[it.time]?).map ProcEntry.dirent = none
      rw [List.getElem?_eq_none (List.drop_eq_nil_iff.mp h.rest_eq), Option.map_none]
    exact ⟨_, ⟨rfl, rfl⟩, readdirTurn_of_none h.dip_eq h.opened hend⟩
  turn entry rest it h := by
    obtain ⟨hentry, hrest⟩ := Cursor.getElem?_of_drop h.rest_eq
    refine ⟨{ it with time := it.time + 1 }, ⟨h.dip_eq, h.opened, h.filter_eq, hrest⟩, ?_⟩
    have hread : (os.procfs entries fuel).readdir it.time = some entry.dirent := by
      change (entries[it.time]?).map ProcEntry.dirent = _
      rw [hentry, Option.map_some]
    cases entry with
    | other dit skipped => exact readdirTurn_other h.dip_eq h.opened hread skipped
    | process pid range =>
      have hpid : pid ∈ os.procs.map OsProcess.pid := by
        rw [← hentries]
        exact List.mem_filterMap.mpr ⟨_, List.mem_of_getElem? hentry, rfl⟩
      have hselect : select os filter (.process pid range) =
          os.chooses (fun _ => false) os.CountsBelow filter pid := rfl
      rw [readdirTurn_process h.dip_eq h.opened range hread, hselect]
      by_cases hnone : os.chooses (fun _ => false) os.CountsBelow filter pid = none
      · rw [if_pos ((refused_iff hwalks hpid it.time).mpr hnone), hnone]
      · rw [if_neg (mt (refused_iff hwalks hpid it.time).mp hnone)]
        rw [chooses_ne_none hnone]

/-- A call of `get_next_process` that has the directory before it. -/
theorem getNextProcess_many (hentries : ProcEntry.pids entries = os.procs.map OsProcess.pid)
    (hwalks : Walks os filter fuel) (hmany : ¬ readsOne filter) (hfuel : entries.length < fuel)
    {l : List Pid} {it : Iterator}
    (h : Cursor.Left (select os filter) (Before entries filter) Ended l it) :
    ∃ it', getNextProcess (os.procfs entries fuel) fuel it = .returned (l.head?, it') ∧
      Cursor.Left (select os filter) (Before entries filter) Ended l.tail it' := by
  rcases h with ⟨rest, hbefore, rfl⟩ | ⟨rfl, hdip, hclosed⟩
  · have hlength : rest.length < fuel := by
      have hle := congrArg List.length hbefore.rest_eq
      rw [List.length_drop] at hle
      omega
    have hne : HandlePtr.handle ≠ .null := by decide
    rw [getNextProcess, readField_of_eq hbefore.dip_eq, readField_of_eq hbefore.filter_eq]
    dsimp only [Outcome.returned_bind]
    rw [if_neg hne, if_neg (show ¬ (filter.pid ≠ 0 ∧ filter.includeChildren = false) from hmany)]
    exact (visits hentries hwalks).iterate hbefore hlength
  · rw [getNextProcess, readField_of_eq hdip]
    exact ⟨it, rfl, Or.inr ⟨rfl, hdip, hclosed⟩⟩

/-- What is left in the mode for one process. -/
def LeftOne (os : Os) (filter : ProcessFilter) (l : List Pid) (it : Iterator) : Prop :=
  (it.dip = some .handle ∧ it.stream = .opened ∧ it.filter = some filter ∧
    l = [filter.pid].filter os.canRead) ∨ l = [] ∧ Ended it

theorem getNextProcess_one (hone : readsOne filter) {l : List Pid} {it : Iterator}
    (h : LeftOne os filter l it) :
    ∃ it', getNextProcess (os.procfs entries fuel) fuel it = .returned (l.head?, it') ∧
      LeftOne os filter l.tail it' := by
  rcases h with ⟨hdip, hopen, hfilter, rfl⟩ | ⟨rfl, hdip, hclosed⟩
  · have hne : HandlePtr.handle ≠ .null := by decide
    have hread : (os.procfs entries fuel).readProcessInfo it.time filter.pid =
        os.canRead filter.pid := rfl
    rw [getNextProcess, readField_of_eq hdip, readField_of_eq hfilter]
    dsimp only [Outcome.returned_bind]
    rw [if_neg hne, if_pos (show filter.pid ≠ 0 ∧ filter.includeChildren = false from hone),
      closeStream_eq hdip hopen, hread]
    cases hcan : os.canRead filter.pid with
    | false =>
      exact ⟨{ it with dip := some .null, stream := .closed }, by simp [hcan],
        Or.inr ⟨by simp [hcan], rfl, rfl⟩⟩
    | true =>
      exact ⟨{ it with dip := some .null, stream := .closed }, by simp [hcan],
        Or.inr ⟨by simp [hcan], rfl, rfl⟩⟩
  · rw [getNextProcess, readField_of_eq hdip]
    exact ⟨it, rfl, Or.inr ⟨rfl, hdip, hclosed⟩⟩

theorem closeProcessIterator_closes {env : Answers} {it : Iterator}
    (h : it.dip = some .handle ∧ it.stream = .opened ∨ Ended it) :
    ∃ code it', closeProcessIterator env it = .returned (code, it') ∧ it'.stream = .closed := by
  rcases h with ⟨hdip, hopen⟩ | ⟨hdip, hclosed⟩
  · have hne : HandlePtr.handle ≠ .null := by decide
    rw [closeProcessIterator, readField_of_eq hdip]
    dsimp only [Outcome.returned_bind]
    rw [if_neg hne, closeStream_eq hdip hopen]
    exact ⟨_, _, rfl, rfl⟩
  · rw [closeProcessIterator, readField_of_eq hdip]
    exact ⟨_, it, rfl, hclosed⟩

/-- A session on Linux. -/
theorem session_wanted (hentries : ProcEntry.pids entries = os.procs.map OsProcess.pid)
    (hwalks : Walks os filter fuel) (hfuel : entries.length + 1 < fuel) :
    ∃ it, (backend (os.procfs entries fuel) filter).session fuel =
        .returned (os.wanted (fun _ => false) os.CountsBelow filter, it) ∧ it.stream = .closed := by
  have hinit : (backend (os.procfs entries fuel) filter).init =
      .returned (0, ⟨some .handle, some filter, .opened, 0⟩) := rfl
  by_cases hone : readsOne filter
  · rw [wanted, if_pos hone]
    refine Backend.session_yields (LeftOne os filter) hinit (Or.inl ⟨rfl, rfl, rfl, rfl⟩)
      (fun l it => getNextProcess_one hone) (fun it h => closeProcessIterator_closes ?_) ?_
    · exact h.imp (fun h => ⟨h.1, h.2.1⟩) fun h => h.2
    · exact (List.length_filter_le _ _).trans_lt ((Nat.le_add_left 1 _).trans_lt hfuel)
  · have hselected :
        (os.procs.map OsProcess.pid).filterMap (os.chooses (fun _ => false) os.CountsBelow filter) =
          entries.filterMap (select os filter) := by
      rw [← hentries, ProcEntry.pids, List.filterMap_filterMap]
      rfl
    rw [wanted, if_neg hone, hselected]
    refine Backend.session_yields (Cursor.Left (select os filter) (Before entries filter) Ended)
      hinit (Or.inl ⟨entries, ⟨rfl, rfl, rfl, List.drop_zero⟩, rfl⟩)
      (fun l it => getNextProcess_many hentries hwalks hone (Nat.lt_of_succ_lt hfuel))
      (fun it h => closeProcessIterator_closes ?_) ?_
    · exact h.imp (fun ⟨rest, h, _⟩ => ⟨h.dip_eq, h.opened⟩) fun h => h.2
    · exact (List.length_filterMap_le _ _).trans_lt (Nat.lt_of_succ_lt hfuel)

end Procfs

end CpuLimit
