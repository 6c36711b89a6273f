import CpuLimit.ProcessIterator

/-!
# The directory stream of the Linux iterator

`init_process_iterator` and `get_next_process` of `process_iterator_linux.c`, over
the entries that the stream of /proc has still to show. The handle in the iterator
says whether the iteration goes on; its end is a value of the handle.
-/
namespace CpuLimit

open Library.Scanf

/-- `struct dirent`, with the test of its `d_type`. -/
structure Dirent where
  dName : List Char
  isDir : Bool
  deriving DecidableEq

/-- What `check_proc` and `opendir` find. -/
inductive ProcDir
  | notMounted
  | unopened
  | opened (entries : List Dirent)
  deriving DecidableEq

/-- `struct process_iterator`. The handle is `none` for `NULL`, and the filter is
`none` until it is set. -/
structure ProcessIterator where
  dip : Option (List Dirent)
  filter : Option ProcessFilter
  deriving DecidableEq

/-- The processes during one scan: what the system says of them, the contents of
their files, and how far a walk through the tree may go. -/
structure ProcFiles where
  os : Os
  cputime : Pid → ℚ
  command : Pid → List Char
  fuel : ℕ

/-- `init_process_iterator`; `none` is the exit of the program. -/
def initProcessIterator (dir : ProcDir) (filter : ProcessFilter) : Option (ℤ × ProcessIterator) :=
  match dir with
  | .notMounted => none
  | .unopened => some (-1, ⟨none, none⟩)
  | .opened entries => some (0, ⟨some entries, some filter⟩)

def isNumeric (str : List Char) : Bool := str ≠ [] && str.all Char.isDigit

/-- `atol`; a text without a number is 0. -/
def atol (str : List Char) : ℤ :=
  match scanInt str with
  | none => 0
  | some (n, _) => toLong n

namespace ProcFiles

variable (files : ProcFiles)

/-- `read_process_info` during the scan. -/
def readProcessInfo (pid : Pid) : Option Process :=
  files.os.readProcessInfo pid (files.cputime pid) (files.command pid)

/-- The loop of `get_next_process`: a record with the entries after it, or the end
of the stream. The result is `none` when a walk runs out of fuel. -/
def readdirLoop (filter : ProcessFilter) : List Dirent → Option (Option (Process × List Dirent))
  | [] => some none
  | dit :: entries =>
    if dit.isDir = false then readdirLoop filter entries
    else if isNumeric dit.dName = false then readdirLoop filter entries
    else
      match files.os.passes files.fuel filter (toPid (atol dit.dName)) with
      | none => none
      | some false => readdirLoop filter entries
      | some true =>
        match files.readProcessInfo (toPid (atol dit.dName)) with
        | none => readdirLoop filter entries
        | some p => some (some (p, entries))

/-- `get_next_process`: the iterator after the call, and the record; a missing
record is the result -1. An unset filter is not to be read. -/
def getNextProcess (it : ProcessIterator) : Option (ProcessIterator × Option Process) :=
  match it.dip with
  | none => some (it, none)
  | some entries =>
    it.filter.bind fun filter =>
      if Os.readsOne filter then
        some ({ it with dip := none }, files.readProcessInfo filter.pid)
      else
        (files.readdirLoop filter entries).map fun found =>
          match found with
          | none => ({ it with dip := none }, none)
          | some (p, rest) => ({ it with dip := some rest }, some p)

/-- The records of the first calls of `get_next_process`, up to the result -1. -/
def yields : ℕ → ProcessIterator → Option (List Process)
  | 0, _ => none
  | calls + 1, it =>
    (files.getNextProcess it).bind fun next =>
      match next.2 with
      | none => some []
      | some p => (yields calls next.1).map (p :: ·)

/-- What a caller gets that does not look at the result of `init_process_iterator`. -/
def scan (calls : ℕ) (dir : ProcDir) (filter : ProcessFilter) : Option (List Process) :=
  (initProcessIterator dir filter).bind fun init => files.yields calls init.2

/-- After the end there is no further record. -/
theorem getNextProcess_of_closed {it : ProcessIterator} (h : it.dip = none) :
    files.getNextProcess it = some (it, none) := by
  unfold getNextProcess
  rw [h]

/-- Failed initialisations end the iteration before it begins. -/
theorem yields_of_failed {dir : ProcDir} {filter : ProcessFilter} {it : ProcessIterator}
    (h : initProcessIterator dir filter = some (-1, it)) (calls : ℕ) :
    files.yields (calls + 1) it = some [] := by
  have hdip : it.dip = none := by
    cases dir with
    | notMounted => simp [initProcessIterator] at h
    | unopened =>
      simp only [initProcessIterator, Option.some.injEq, Prod.mk.injEq] at h
      rw [← h.2]
    | opened entries => simp [initProcessIterator] at h
  rw [yields, getNextProcess_of_closed files hdip]
  rfl

theorem scan_of_failed {dir : ProcDir} {filter : ProcessFilter} {it : ProcessIterator}
    (h : initProcessIterator dir filter = some (-1, it)) (calls : ℕ) :
    files.scan (calls + 1) dir filter = some [] := by
  rw [scan, h]
  exact files.yields_of_failed h calls

end ProcFiles

end CpuLimit
