import CpuLimit.ChildOf
import CpuLimit.LinuxIterator

/-!
# What the Linux iterator yields

A listing of /proc that does not change while it is read: directories of
processes under their numbers, among other entries. The calls of
`get_next_process` go through it once and then report the end for good. What
they yield is determined by the files alone: which records can be read, and the
parent links that `getppid_of` shows.
-/
namespace CpuLimit

open Library Library.Scanf

/-! ## Listings -/

/-- An entry of /proc: the directory of a process, or one that is to be skipped. -/
inductive ProcEntry
  | process (pid : Pid) (range : 0 < pid ∧ pid < 2147483648)
  | other (dit : Dirent) (skipped : dit.isDir = false ∨ isNumeric dit.dName = false)

namespace ProcEntry

def dirent : ProcEntry → Dirent
  | process pid _ => ⟨decimal pid, true⟩
  | other dit _ => dit

def pid : ProcEntry → Option Pid
  | process pid _ => some pid
  | other _ _ => none

/-- The processes of a listing, in the order of the directory. -/
def pids (listing : List ProcEntry) : List Pid := listing.filterMap pid

@[simp] theorem pids_process (n : Pid) (range : 0 < n ∧ n < 2147483648)
    (listing : List ProcEntry) : pids (process n range :: listing) = n :: pids listing := rfl

@[simp] theorem pids_other (dit : Dirent)
    (skipped : dit.isDir = false ∨ isNumeric dit.dName = false) (listing : List ProcEntry) :
    pids (other dit skipped :: listing) = pids listing := rfl

end ProcEntry

theorem isNumeric_decimal {n : ℤ} (h : 0 < n) : isNumeric (decimal n) = true := by
  have hall : (Nat.toDigits 10 n.natAbs).all Char.isDigit = true :=
    List.all_eq_true.mpr (toDigits_digits _)
  rw [isNumeric, decimal, if_neg (not_lt.mpr h.le), hall]
  simp [Nat.toDigits_ne_nil]

/-- The number of a process is recovered from its name. -/
theorem toPid_atol_decimal {n : ℤ} (h : 0 < n ∧ n < 2147483648) : toPid (atol (decimal n)) = n := by
  have hscan : scanInt (decimal n ++ []) = some (n, []) := scanInt_decimal n (by simp [NotHead])
  rw [List.append_nil] at hscan
  rw [atol, hscan]
  exact toPid_toLong ⟨by omega, h.2⟩

/-! ## The calls of get_next_process -/

namespace ProcFiles

variable (files : ProcFiles)

/-- What the first calls report, with `none` for the result -1. -/
def results : ℕ → ProcessIterator → Option (List (Option Pid))
  | 0, _ => some []
  | calls + 1, it =>
    (files.getNextProcess it).bind fun next =>
      (results calls next.1).map fun later => next.2.map Process.pid :: later

/-- The answers of an iteration over a list: its elements in turn, then the end. -/
def answers (l : List Pid) (calls : ℕ) : List (Option Pid) := (List.range calls).map (l[·]?)

theorem answers_nil_succ (calls : ℕ) : answers [] (calls + 1) = none :: answers [] calls := by
  simp [answers, List.range_succ_eq_map, Function.comp_def]

theorem answers_cons_succ (pid : Pid) (l : List Pid) (calls : ℕ) :
    answers (pid :: l) (calls + 1) = some pid :: answers l calls := by
  simp [answers, List.range_succ_eq_map, Function.comp_def]

theorem results_of_closed {it : ProcessIterator} (h : it.dip = none) (calls : ℕ) :
    files.results calls it = some (answers [] calls) := by
  induction calls with
  | zero => rfl
  | succ calls ih =>
    rw [results, getNextProcess_of_closed files h, Option.bind_some, ih, answers_nil_succ]
    rfl

theorem pid_readProcessInfo {pid : Pid} {p : Process} (h : files.readProcessInfo pid = some p) :
    p.pid = pid := by
  unfold readProcessInfo Os.readProcessInfo at h
  split at h
  · cases h
  · split_ifs at h
    cases h
    rfl

/-- The mode for one process: its record or the end, and the end from then on. -/
theorem results_single {filter : ProcessFilter} (hone : Os.readsOne filter)
    (entries : List Dirent) (calls : ℕ) :
    files.results calls ⟨some entries, some filter⟩ =
      some (answers ([filter.pid].filter fun pid => (files.readProcessInfo pid).isSome) calls) := by
  cases calls with
  | zero => rfl
  | succ calls =>
    have hnext : files.getNextProcess ⟨some entries, some filter⟩ =
        some (⟨none, some filter⟩, files.readProcessInfo filter.pid) := if_pos hone
    rw [results, hnext, Option.bind_some, results_of_closed files rfl, Option.map_some]
    cases hread : files.readProcessInfo filter.pid with
    | none => simp [hread, answers_nil_succ]
    | some p => simp [hread, answers_cons_succ, files.pid_readProcessInfo hread]

section Loop

variable {files} {filter : ProcessFilter} {passes : Pid → Bool} {listing : List ProcEntry}

/-- The processes that pass the filter and can be read. -/
def selected (files : ProcFiles) (passes : Pid → Bool) (listing : List ProcEntry) : List Pid :=
  (ProcEntry.pids listing).filter fun pid => passes pid && (files.readProcessInfo pid).isSome

theorem selected_process {pid : Pid} {range : 0 < pid ∧ pid < 2147483648} :
    files.selected passes (.process pid range :: listing) =
      if passes pid && (files.readProcessInfo pid).isSome then pid :: files.selected passes listing
      else files.selected passes listing := by
  rw [selected, ProcEntry.pids_process, List.filter_cons]
  rfl

/-- An entry that is skipped leaves the loop where it was. -/
theorem readdirLoop_other {dit : Dirent} (skipped : dit.isDir = false ∨ isNumeric dit.dName = false)
    (entries : List Dirent) :
    files.readdirLoop filter (dit :: entries) = files.readdirLoop filter entries := by
  rw [readdirLoop]
  by_cases hdir : dit.isDir = false
  · rw [if_pos hdir]
  · rw [if_neg hdir, if_pos (skipped.resolve_left hdir)]

/-- The directory of a process is tested and read under its number. -/
theorem readdirLoop_process {pid : Pid} (range : 0 < pid ∧ pid < 2147483648)
    (hpass : files.os.passes files.fuel filter pid = some (passes pid)) (entries : List Dirent) :
    files.readdirLoop filter (⟨decimal pid, true⟩ :: entries) =
      if passes pid then
        (files.readProcessInfo pid).elim (files.readdirLoop filter entries)
          fun p => some (some (p, entries))
      else files.readdirLoop filter entries := by
  have hnumeric := isNumeric_decimal range.1
  rw [readdirLoop]
  simp only [hnumeric, toPid_atol_decimal range, hpass, Bool.true_eq_false, if_false]
  cases passes pid with
  | false => rfl
  | true => cases files.readProcessInfo pid <;> rfl

/-- The loop skips to the first selected process, and past its entry. -/
theorem readdirLoop_listing
    (hpass : ∀ pid ∈ ProcEntry.pids listing,
      files.os.passes files.fuel filter pid = some (passes pid)) :
    (files.selected passes listing = [] ∧
        files.readdirLoop filter (listing.map ProcEntry.dirent) = some none) ∨
      ∃ p later, files.readdirLoop filter (listing.map ProcEntry.dirent) =
          some (some (p, later.map ProcEntry.dirent)) ∧
        files.selected passes listing = p.pid :: files.selected passes later ∧
        ∀ pid ∈ ProcEntry.pids later, pid ∈ ProcEntry.pids listing := by
  induction listing with
  | nil => exact Or.inl ⟨rfl, rfl⟩
  | cons entry listing ih =>
    cases entry with
    | other dit skipped =>
      have hskip : files.readdirLoop filter (dit :: listing.map ProcEntry.dirent) =
          files.readdirLoop filter (listing.map ProcEntry.dirent) := readdirLoop_other skipped _
      rw [List.map_cons, ProcEntry.dirent, hskip]
      exact ih hpass
    | process pid range =>
      rw [ProcEntry.pids_process, List.forall_mem_cons] at hpass
      have hrest := ih hpass.2
      have hlater : ∀ later : List ProcEntry,
          (∀ n ∈ ProcEntry.pids later, n ∈ ProcEntry.pids listing) →
          ∀ n ∈ ProcEntry.pids later, n ∈ ProcEntry.pids (.process pid range :: listing) :=
        fun later h n hn => List.mem_cons_of_mem _ (h n hn)
      rw [List.map_cons, ProcEntry.dirent, readdirLoop_process range hpass.1, selected_process]
      cases hp : passes pid with
      | false =>
        simp only [Bool.false_and, Bool.false_eq_true, if_false]
        exact hrest.imp_right fun ⟨p, later, h⟩ => ⟨p, later, h.1, h.2.1, hlater later h.2.2⟩
      | true =>
        cases hread : files.readProcessInfo pid with
        | none =>
          simp only [Option.isSome_none, Bool.and_false, Bool.false_eq_true, if_false, if_true,
            Option.elim_none]
          exact hrest.imp_right fun ⟨p, later, h⟩ => ⟨p, later, h.1, h.2.1, hlater later h.2.2⟩
        | some p =>
          refine Or.inr ⟨p, listing, rfl, ?_, hlater listing fun n hn => hn⟩
          rw [files.pid_readProcessInfo hread]
          rfl

/-- Where the filter is tested on each process of the listing, the calls report the
selected ones in the order of the directory. -/
theorem results_listing (hmany : ¬ Os.readsOne filter)
    (hpass : ∀ pid ∈ ProcEntry.pids listing,
      files.os.passes files.fuel filter pid = some (passes pid)) (calls : ℕ) :
    files.results calls ⟨some (listing.map ProcEntry.dirent), some filter⟩ =
      some (answers (files.selected passes listing) calls) := by
  induction calls generalizing listing with
  | zero => rfl
  | succ calls ih =>
    have hnext : files.getNextProcess ⟨some (listing.map ProcEntry.dirent), some filter⟩ =
        (files.readdirLoop filter (listing.map ProcEntry.dirent)).map fun found =>
          found.elim (⟨none, some filter⟩, none)
            fun r => (⟨some r.2, some filter⟩, some r.1) := by
      rw [getNextProcess]
      dsimp only [Option.bind_some]
      rw [if_neg hmany]
      congr 1
      funext found
      rcases found with _ | ⟨p, rest⟩ <;> rfl
    rw [results, hnext]
    rcases readdirLoop_listing hpass with ⟨hnil, hloop⟩ | ⟨p, later, hloop, hcons, hsub⟩
    · rw [hloop, hnil, Option.map_some, Option.bind_some, Option.elim_none,
        results_of_closed files rfl, answers_nil_succ]
      rfl
    · rw [hloop, hcons, Option.map_some, Option.bind_some, Option.elim_some,
        ih fun pid hpid => hpass pid (hsub pid hpid), answers_cons_succ]
      rfl

end Loop

end ProcFiles

/-! ## The files -/

/-- The directory of a process: its two files, with `none` for one that cannot be
opened, and its times, which `stat` may refuse. -/
structure PidDir where
  pid : Pid
  cmdline : Option (List Char)
  stat : Option (List Char)
  startTime : Timespec
  startReadable : Bool
  range : 0 < pid ∧ pid < 2147483648

/-- What is in /proc under the numbers of processes. -/
structure ProcFs where
  dirs : List PidDir
  clkTck : ℕ

namespace ProcFs

variable (fs : ProcFs)

def dir (pid : Pid) : Option PidDir := fs.dirs.find? fun d => d.pid = pid

def cmdline (pid : Pid) : Option (List Char) := (fs.dir pid).bind PidDir.cmdline

def stat (pid : Pid) : Option (List Char) := (fs.dir pid).bind PidDir.stat

/-- `read_process_info` succeeds. -/
def Readable (pid : Pid) : Prop :=
  (readProcessInfo fs.clkTck pid (fs.cmdline pid) (fs.stat pid)).isSome = true

/-- The parent that `getppid_of` reads, if it is a process. Process 1 is a root. -/
def parent (pid : Pid) : Option Pid :=
  if 1 < pid ∧ 0 < getppidOf pid (fs.stat pid) then some (getppidOf pid (fs.stat pid)) else none

def Acyclic : Prop := ∀ pid, ¬ ParentTree.Ancestor fs.parent pid pid

/-- No process started before its parent. -/
def StartTimesGrow : Prop :=
  ∀ pid d q, fs.dir pid = some d → fs.dir (getppidOf pid (fs.stat pid)) = some q →
    Os.earlierThan d.startTime q.startTime = false

/-! ## The processes behind the files -/

/-- The process that the files show. To the iterator, one whose record is refused
for any reason is a zombie. -/
def osProcess (d : PidDir) : OsProcess where
  pid := d.pid
  ppid := getppidOf d.pid d.stat
  zombie := (readProcessInfo fs.clkTck d.pid d.cmdline d.stat).isNone
  startTime := d.startTime
  readable := true
  startReadable := d.startReadable
  permitted := true
  lastSignal := none

def os : Os := ⟨fs.dirs.map fs.osProcess, true, false⟩

/-- The processes during a scan. CPU times and commands play no role. -/
def procFiles (cputime : Pid → ℚ) (command : Pid → List Char) (fuel : ℕ) : ProcFiles :=
  ⟨fs.os, cputime, command, fuel⟩

variable {fs}

theorem pid_of_dir {pid : Pid} {d : PidDir} (h : fs.dir pid = some d) : d.pid = pid := by
  simpa using List.find?_some h

theorem proc_os (pid : Pid) : fs.os.proc pid = (fs.dir pid).map fs.osProcess := by
  rw [os, Os.proc, List.find?_map]
  rfl

theorem getppidOf_os (pid : Pid) : fs.os.getppidOf pid = getppidOf pid (fs.stat pid) := by
  by_cases hpos : pid ≤ 0
  · simp [Os.getppidOf, getppidOf, hpos]
  cases hdir : fs.dir pid with
  | none => simp [Os.getppidOf, getppidOf, hpos, proc_os, hdir, stat]
  | some d =>
    have hpid := pid_of_dir hdir
    simp [Os.getppidOf, hpos, proc_os, hdir, stat, osProcess, hpid]

theorem shownParent_os : fs.os.shownParent = fs.parent := by
  funext pid
  simp only [Os.shownParent, parent, getppidOf_os]

theorem isSome_readProcessInfo_os (pid : Pid) (cputime : ℚ) (command : List Char) :
    (fs.os.readProcessInfo pid cputime command).isSome = true ↔ fs.Readable pid := by
  cases hdir : fs.dir pid with
  | none => simp [Os.readProcessInfo, proc_os, hdir, Readable, readProcessInfo, cmdline]
  | some d =>
    have hpid := pid_of_dir hdir
    cases hread : readProcessInfo fs.clkTck pid d.cmdline d.stat with
    | none =>
      simp [Os.readProcessInfo, proc_os, hdir, Readable, cmdline, stat, osProcess, hpid, hread]
    | some info =>
      simp [Os.readProcessInfo, proc_os, hdir, Readable, cmdline, stat, osProcess, hpid, hread]

/-- For the line of the kernel with a regular name, the link is the parent that the line
shows, and with a command line the record is refused in three states only. -/
theorem shown_of_line {r : StatRecord} (hstat : fs.stat r.pid = some r.line)
    (hne : r.comm ≠ []) (hparen : ')' ∉ r.comm) {cmdline buffer : List Char}
    (hcmdline : fs.cmdline r.pid = some cmdline) (hbuffer : fgets pathMax cmdline = some buffer) :
    getppidOf r.pid (fs.stat r.pid) = r.ppid ∧
      (fs.Readable r.pid ↔ ¬ (r.state = 'Z' ∨ r.state = 'X' ∨ r.state = 'x')) := by
  obtain ⟨hppid, hinfo⟩ := r.parsed_of_comm hne hparen
  have hrefused := (hinfo fs.clkTck cmdline buffer hbuffer).1
  rw [hstat, Readable, hstat, hcmdline, ← hrefused, Option.isSome_iff_ne_none]
  exact ⟨hppid, Iff.rfl⟩

theorem acyclic_os_iff : fs.os.Acyclic ↔ fs.Acyclic := by
  rw [Os.Acyclic, shownParent_os]
  exact Iff.rfl

theorem StartTimesGrow.os (h : fs.StartTimesGrow) : fs.os.StartTimesGrow := by
  intro pid p q hp hq
  rw [proc_os, Option.map_eq_some_iff] at hp hq
  obtain ⟨d, hd, rfl⟩ := hp
  obtain ⟨e, he, rfl⟩ := hq
  have hppid : (fs.osProcess d).ppid = getppidOf pid (fs.stat pid) := by
    simp [osProcess, stat, hd, pid_of_dir hd]
  exact h pid d e hd (hppid ▸ he)

/-! ## The processes that a filter asks for -/

variable (fs) in
/-- A filter with children wants a process and those below it. Every process counts
as a child of process 1. -/
def InTree (root pid : Pid) : Prop :=
  pid = root ∨ ParentTree.Ancestor fs.parent root pid ∨ root = 1 ∧ 1 < pid

open Classical in
variable (fs) in
/-- What an iteration over a listing is to yield. -/
noncomputable def filtered (listing : List ProcEntry) (filter : ProcessFilter) : List Pid :=
  if filter.pid = 0 then
    (ProcEntry.pids listing).filter fun pid => fs.Readable pid
  else if filter.includeChildren then
    (ProcEntry.pids listing).filter fun pid => fs.InTree filter.pid pid ∧ fs.Readable pid
  else
    [filter.pid].filter fun pid => fs.Readable pid

theorem nodup_filtered {listing : List ProcEntry} (h : (ProcEntry.pids listing).Nodup)
    (filter : ProcessFilter) : (fs.filtered listing filter).Nodup := by
  unfold filtered
  split_ifs
  · exact h.filter _
  · exact h.filter _
  · exact (List.nodup_singleton _).filter _

open Classical in
/-- The filter of the loop ends on every process of the listing. -/
theorem passes_returns (hacyclic : fs.Acyclic) (hgrow : fs.StartTimesGrow)
    {filter : ProcessFilter} (hmany : ¬ Os.readsOne filter) {pid : Pid} (hpid : 0 < pid) :
    Fuel.Returns (fun fuel pid => fs.os.passes fuel filter pid) pid
      (decide (filter.pid = 0 ∨ fs.InTree filter.pid pid)) := by
  have hpos : ¬ pid ≤ 0 := not_le.mpr hpid
  by_cases hask : filter.pid ≠ 0 ∧ filter.pid ≠ pid
  · have hchild := Os.isChildOf_returns (acyclic_os_iff.mpr hacyclic) hgrow.os pid filter.pid
    rw [shownParent_os] at hchild
    simp only [InTree, hask.1, hask.2.symm, false_or]
    refine hchild.congr fun fuel => ?_
    rw [Os.passes, if_neg hmany, if_neg hpos, if_pos hask]
  · have hsame : filter.pid = 0 ∨ fs.InTree filter.pid pid := by
      by_cases hzero : filter.pid = 0
      · exact Or.inl hzero
      · exact Or.inr (Or.inl (not_not.mp fun hne => hask ⟨hzero, fun he => hne he.symm⟩))
    rw [decide_eq_true hsame]
    exact .stop fun fuel => by rw [Os.passes, if_neg hmany, if_neg hpos, if_neg hask]

theorem pos_of_mem_pids {listing : List ProcEntry} {pid : Pid}
    (h : pid ∈ ProcEntry.pids listing) : 0 < pid := by
  obtain ⟨entry, -, hentry⟩ := List.mem_filterMap.mp h
  cases entry with
  | other dit skipped => cases hentry
  | process n range =>
    cases hentry
    exact range.1

section Yields

variable (cputime : Pid → ℚ) (command : Pid → List Char)

open Classical in
theorem isSome_readProcessInfo_procFiles (fuel : ℕ) (pid : Pid) :
    ((fs.procFiles cputime command fuel).readProcessInfo pid).isSome =
      decide (fs.Readable pid) := by
  rw [Bool.eq_iff_iff, decide_eq_true_iff]
  exact isSome_readProcessInfo_os pid _ _

open Classical in
/-- The selection of the loop is the filtered listing. -/
theorem selected_eq_filtered {filter : ProcessFilter} (hmany : ¬ Os.readsOne filter)
    (listing : List ProcEntry) (fuel : ℕ) :
    (fs.procFiles cputime command fuel).selected
        (fun pid => decide (filter.pid = 0 ∨ fs.InTree filter.pid pid)) listing =
      fs.filtered listing filter := by
  have hread := @isSome_readProcessInfo_procFiles fs cputime command fuel
  rw [ProcFiles.selected, filtered]
  by_cases hzero : filter.pid = 0
  · simp [hzero, hread]
  · have hchildren : filter.includeChildren = true := by
      by_contra hno
      exact hmany ⟨hzero, Bool.not_eq_true _ ▸ hno⟩
    simp [hzero, hchildren, hread]

/-- Over a listing of distinct processes, `get_next_process` yields the filtered ones,
each once and in the order of the directory, and the end from then on. Every sufficient
amount of fuel for the walks through the tree gives these answers. -/
theorem results_eq_filtered (hacyclic : fs.Acyclic) (hgrow : fs.StartTimesGrow)
    {listing : List ProcEntry} (hdistinct : (ProcEntry.pids listing).Nodup)
    (filter : ProcessFilter) :
    (fs.filtered listing filter).Nodup ∧
      ∃ it, initProcessIterator (.opened (listing.map ProcEntry.dirent)) filter = some (0, it) ∧
        ∃ enough, ∀ fuel, enough ≤ fuel → ∀ calls,
          (fs.procFiles cputime command fuel).results calls it =
            some (ProcFiles.answers (fs.filtered listing filter) calls) := by
  refine ⟨nodup_filtered hdistinct filter, _, rfl, ?_⟩
  by_cases hone : Os.readsOne filter
  · refine ⟨0, fun fuel _ calls => ?_⟩
    have hfiltered : fs.filtered listing filter = [filter.pid].filter fun pid =>
        ((fs.procFiles cputime command fuel).readProcessInfo pid).isSome := by
      simp only [filtered, hone.1, hone.2, if_false, Bool.false_eq_true,
        isSome_readProcessInfo_procFiles]
    rw [hfiltered]
    exact ProcFiles.results_single _ hone _ calls
  · have hreturns := fun pid (hpid : pid ∈ ProcEntry.pids listing) =>
      passes_returns hacyclic hgrow hone (pos_of_mem_pids hpid)
    obtain ⟨enough, henough⟩ := Fuel.Returns.forall_mem hreturns
    refine ⟨enough, fun fuel hfuel calls => ?_⟩
    rw [← selected_eq_filtered cputime command hone listing fuel]
    exact ProcFiles.results_listing hone (henough fuel hfuel) calls

end Yields

/-! ## A small tree -/

/-- Parents with smaller numbers make no cycle. -/
theorem acyclic_of_dirs (h : ∀ d ∈ fs.dirs, getppidOf d.pid d.stat < d.pid) : fs.Acyclic := by
  refine acyclic_os_iff.mp (Os.acyclic_of_procs fun p hp => ?_)
  obtain ⟨d, hd, rfl⟩ := List.mem_map.mp hp
  exact h d hd

theorem startTimesGrow_of_dirs (h : ∀ d ∈ fs.dirs, ∀ q ∈ fs.dirs,
    q.pid = getppidOf d.pid d.stat → Os.earlierThan d.startTime q.startTime = false) :
    fs.StartTimesGrow := by
  intro pid d q hd hq
  refine h d (List.mem_of_find?_eq_some hd) q (List.mem_of_find?_eq_some hq) ?_
  rw [pid_of_dir hq, pid_of_dir hd]
  simp [stat, hd]

/-- Process 8, a zombie, connects process 9 to process 7. -/
def zombieFs : ProcFs where
  dirs :=
    [⟨1, some "init".toList, some "1 (init) S 0 0 0 0 0 0 0 0 0 0 0 0".toList, ⟨0, 0⟩, true,
      by decide⟩,
    ⟨7, some "sh".toList, some "7 (sh) S 1 0 0 0 0 0 0 0 0 0 0 0".toList, ⟨3, 0⟩, true,
      by decide⟩,
    ⟨8, none, some "8 (sh) Z 7 0 0 0 0 0 0 0 0 0 0 0".toList, ⟨3, 5⟩, true, by decide⟩,
    ⟨9, some "cat".toList, some "9 (cat) R 8 0 0 0 0 0 0 0 0 0 5 1".toList, ⟨4, 0⟩, false,
      by decide⟩]
  clkTck := 100

def zombieListing : List ProcEntry :=
  [.process 9 (by decide), .other ⟨"self".toList, false⟩ (by decide), .process 1 (by decide),
    .other ⟨"irq".toList, true⟩ (by decide), .process 7 (by decide), .process 8 (by decide)]

theorem results_eq_filtered_zombieFs :
    (zombieFs.filtered zombieListing ⟨7, true⟩).Nodup ∧
      ∃ it, initProcessIterator (.opened (zombieListing.map ProcEntry.dirent)) ⟨7, true⟩ =
          some (0, it) ∧
        ∃ enough, ∀ fuel, enough ≤ fuel → ∀ calls,
          (zombieFs.procFiles (fun _ => 0) (fun _ => []) fuel).results calls it =
            some (ProcFiles.answers (zombieFs.filtered zombieListing ⟨7, true⟩) calls) :=
  results_eq_filtered _ _ (acyclic_of_dirs (by decide +kernel))
    (startTimesGrow_of_dirs (by decide +kernel)) (by decide) ⟨7, true⟩

example : (zombieFs.procFiles (fun _ => 0) (fun _ => []) 5).results 4
    ⟨some (zombieListing.map ProcEntry.dirent), some ⟨7, true⟩⟩ =
      some [some 9, some 7, none, none] := by
  decide +kernel

end ProcFs

end CpuLimit
