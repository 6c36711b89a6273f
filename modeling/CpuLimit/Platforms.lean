import CpuLimit.AppleIterator
import CpuLimit.Library.ChainedTable
import CpuLimit.Library.Cursor
import CpuLimit.Listing

/-!
# One system behind three platforms

What the calls of Linux, FreeBSD and Apple answer about the same processes, while these do
not change, and what a session of the callers is to yield of them.
-/
namespace CpuLimit

open Library Library.Scanf

namespace Backend

variable {σ : Type} {b : Backend σ} {left : List Pid → σ → Prop} {fuel : ℕ}

/-- The callers get what is left. -/
theorem drain_yields
    (hnext : ∀ l it, left l it →
      ∃ it', b.next fuel it = .returned (l.head?, it') ∧ left l.tail it')
    {l : List Pid} (hfuel : l.length < fuel) {it : σ} (hit : left l it) :
    ∃ it', b.drain fuel it = .returned (l, it') ∧ left [] it' := by
  refine Cursor.iterate_collects (fun before it hit => ?_) (fun pid l before it hit => ?_) hfuel hit
  · obtain ⟨it', heq, hit'⟩ := hnext [] it hit
    refine ⟨it', hit', ?_⟩
    dsimp only
    rw [heq]
    rfl
  · obtain ⟨it', heq, hit'⟩ := hnext (pid :: l) it hit
    refine ⟨it', hit', ?_⟩
    dsimp only
    rw [heq]
    rfl

/-- A session yields all that is left at its beginning, and closes its handle. -/
theorem session_yields (left : List Pid → σ → Prop) {l : List Pid} {code : ℤ} {start : σ}
    (hinit : b.init = .returned (code, start)) (hstart : left l start)
    (hnext : ∀ l it, left l it →
      ∃ it', b.next fuel it = .returned (l.head?, it') ∧ left l.tail it')
    (hclose : ∀ it, left [] it →
      ∃ code it', b.close it = .returned (code, it') ∧ b.handle it' = .closed)
    (hfuel : l.length < fuel) :
    ∃ it, b.session fuel = .returned (l, it) ∧ b.handle it = .closed := by
  obtain ⟨it, hdrain, hit⟩ := drain_yields hnext hfuel hstart
  obtain ⟨code', it', heq, hclosed⟩ := hclose it hit
  refine ⟨it', ?_, hclosed⟩
  rw [session, hinit]
  dsimp only [Outcome.returned_bind]
  rw [hdrain]
  dsimp only [Outcome.returned_bind]
  rw [heq]
  rfl

end Backend

/-! ## One system, seen by three platforms -/

namespace Os

variable (os : Os)

/-- The record of the process can be read, which that of a zombie cannot. -/
def canRead (pid : Pid) : Bool := (os.readProcessInfo pid 0 []).isSome

/-- A directory of /proc with these entries. -/
def procfs (entries : List ProcEntry) (fuel : ℕ) : Procfs.Answers where
  mounted := true
  opendir := true
  readdir n := (entries[n]?).map ProcEntry.dirent
  isChildOf _ childPid parentPid := (os.isChildOf fuel childPid parentPid).getD false
  readProcessInfo _ pid := os.canRead pid
  closedir := true

def kinfo (system : Pid → Bool) (p : OsProcess) : Kvm.KinfoProc := ⟨p.pid, p.ppid, system p.pid⟩

/-- The kvm calls show the processes that may be seen. -/
def kvm (system : Pid → Bool) : Kvm.Answers where
  errbuf := true
  openfiles := true
  getprocs := some ((os.procs.filter OsProcess.readable).map (kinfo system))
  failedCount := none
  procs := true
  process _ pid := ((os.proc pid).filter OsProcess.readable).map (kinfo system)
  getargv _ kproc := os.canRead kproc.kiPid
  close := true

/-- The CPU times play no role. -/
def taskallinfo (system : Pid → Bool) (p : OsProcess) : Libproc.ProcTaskallinfo :=
  ⟨p.pid, p.ppid, system p.pid, 0, 0⟩

/-- `sysctl` lists all processes, `proc_pidinfo` shows those that may be seen. -/
def libproc (system : Pid → Bool) : Libproc.Answers where
  size := true
  buffer := true
  listing := some (os.procs.map OsProcess.pid)
  pidlist := true
  pidinfo _ pid := ((os.proc pid).filter OsProcess.readable).map (taskallinfo system)
  pidpath _ pid := if os.canRead pid then some [] else none

/-- The links lead from a process up to another one. -/
def Below (root pid : Pid) : Prop := ParentTree.Ancestor os.shownParent root pid

/-- For Linux and Apple every process is below process 1. -/
def CountsBelow (root pid : Pid) : Prop := os.Below root pid ∨ root = 1 ∧ 1 < pid

open Classical in
/-- A process that the filter asks for, on a platform that hides some processes and has a
notion of what is below another process. -/
noncomputable def chooses (hides : Pid → Bool) (below : Pid → Pid → Prop)
    (filter : ProcessFilter) (pid : Pid) : Option Pid :=
  if hides pid = false ∧ os.canRead pid = true ∧
    (filter.pid = 0 ∨ pid = filter.pid ∨ below filter.pid pid) then some pid else none

/-- What a session is to yield. A single process is not hidden. -/
noncomputable def wanted (hides : Pid → Bool) (below : Pid → Pid → Prop)
    (filter : ProcessFilter) : List Pid :=
  if readsOne filter then [filter.pid].filter os.canRead
  else (os.procs.map OsProcess.pid).filterMap (os.chooses hides below filter)

variable {os} {hides : Pid → Bool} {below : Pid → Pid → Prop} {filter : ProcessFilter} {pid : Pid}

theorem chooses_eq_none : os.chooses hides below filter pid = none ↔
    ¬ (hides pid = false ∧ os.canRead pid = true ∧
      (filter.pid = 0 ∨ pid = filter.pid ∨ below filter.pid pid)) := by
  unfold chooses
  split_ifs with h
  · exact iff_of_false (by simp) (not_not.mpr h)
  · exact iff_of_true rfl h

theorem chooses_of_hidden (h : hides pid = true) : os.chooses hides below filter pid = none :=
  chooses_eq_none.mpr (by simp [h])

theorem chooses_of_unreadable (h : os.canRead pid = false) :
    os.chooses hides below filter pid = none :=
  chooses_eq_none.mpr (by simp [h])

theorem chooses_of_wanted (hshown : hides pid = false) (hread : os.canRead pid = true)
    (h : filter.pid = 0 ∨ pid = filter.pid ∨ below filter.pid pid) :
    os.chooses hides below filter pid = some pid := by
  rw [chooses, if_pos ⟨hshown, hread, h⟩]

theorem chooses_of_other (h : ¬ (filter.pid = 0 ∨ pid = filter.pid ∨ below filter.pid pid)) :
    os.chooses hides below filter pid = none :=
  chooses_eq_none.mpr fun hall => h hall.2.2

theorem chooses_ne_none (h : os.chooses hides below filter pid ≠ none) :
    os.chooses hides below filter pid = some pid := by
  unfold chooses at h ⊢
  split_ifs at h ⊢
  · rfl
  · exact absurd rfl h

theorem proc_of_mem (hdistinct : (os.procs.map OsProcess.pid).Nodup) {p : OsProcess}
    (hp : p ∈ os.procs) : os.proc p.pid = some p :=
  (ChainedTable.find?_key_eq_some_iff hdistinct).mpr ⟨hp, rfl⟩

theorem canRead_of_none (h : (os.proc pid).filter OsProcess.readable = none) :
    os.canRead pid = false := by
  unfold canRead readProcessInfo
  cases hp : os.proc pid with
  | none => rfl
  | some p =>
    rw [hp] at h
    cases hr : p.readable with
    | false => simp [hr]
    | true => simp [hr] at h

theorem includeChildren_of_many (hmany : ¬ readsOne filter) (h : filter.pid ≠ 0) :
    filter.includeChildren = true := by
  by_contra hno
  exact hmany ⟨h, Bool.not_eq_true _ ▸ hno⟩

end Os

/-! ## Walks with an iterator -/

/-- A walk that asks the system for each parent finds what it would in the links alone. The
induction is over the fuel. -/
theorem Os.iterate_climb {σ : Type} {keeps : σ → Prop} {getppidOf : Pid → Pid} {parentPid : Pid}
    {body : Pid × σ → Outcome HandleFault ((Pid × σ) ⊕ (Bool × σ))}
    (hgo : ∀ pid s, keeps s → 1 < pid ∧ pid ≠ parentPid →
      ∃ t, keeps t ∧ body (pid, s) = .returned (.inl (getppidOf pid, t)))
    (hstop : ∀ pid s, ¬ (1 < pid ∧ pid ≠ parentPid) →
      body (pid, s) = .returned (.inr (decide (pid = parentPid), s)))
    {fuel : ℕ} {pid : Pid} {answer : Bool} (h : climb getppidOf parentPid fuel pid = some answer)
    {s : σ} (hs : keeps s) :
    ∃ t, keeps t ∧ Outcome.iterate body fuel (pid, s) = .returned (answer, t) := by
  induction fuel generalizing pid s with
  | zero => cases h
  | succ fuel ih =>
    rw [climb] at h
    rw [Outcome.iterate]
    by_cases hcond : 1 < pid ∧ pid ≠ parentPid
    · rw [if_pos hcond] at h
      obtain ⟨t, ht, hbody⟩ := hgo pid s hs hcond
      rw [hbody]
      exact ih h ht
    · rw [if_neg hcond] at h
      cases h
      rw [hstop pid s hcond]
      exact ⟨s, hs, rfl⟩

end CpuLimit
