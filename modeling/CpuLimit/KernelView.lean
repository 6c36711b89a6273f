import CpuLimit.FailedScan
import CpuLimit.GroupMemory
import CpuLimit.Listing
import CpuLimit.UsageEstimate

/-!
# From the files of the kernel to the group

Updates of a group that read everything from /proc: the directory, the stat lines and the
command lines that the kernel writes for its processes. They do what updates over the
records of the kernel itself would do, with the tree of the kernel and its tick counters.
-/
namespace CpuLimit

open Library ProcessGroup

/-- A process in the kernel, with the text of its command line. -/
structure KernelProcess where
  stat : StatRecord
  cmdline : List Char
  startTime : Timespec
  startReadable : Bool
  pid_lt : stat.pid < 2147483648
  comm_ne : stat.comm ≠ []
  comm_paren : ')' ∉ stat.comm

namespace KernelProcess

variable (p : KernelProcess)

def pid : Pid := p.stat.pid

/-- The directory of the process. -/
def dir : PidDir where
  pid := p.pid
  cmdline := some p.cmdline
  stat := some p.stat.line
  startTime := p.startTime
  startReadable := p.startReadable
  range := ⟨p.stat.pid_pos, p.pid_lt⟩

/-- It has a command line and has not exited. -/
def Shown : Prop :=
  p.cmdline ≠ [] ∧ ¬ (p.stat.state = 'Z' ∨ p.stat.state = 'X' ∨ p.stat.state = 'x')

instance : Decidable p.Shown := inferInstanceAs (Decidable (_ ∧ _))

/-- What the limiter is to know of it; the CPU time is in milliseconds. -/
def record (clkTck : ℕ) : Process where
  pid := p.pid
  ppid := p.stat.ppid
  cputime := ((p.stat.utime : ℚ) + p.stat.stime) * 1000 / clkTck
  cpuUsage := 0
  command := cString ((fgets pathMax p.cmdline).getD [])

variable {p}

/-- The reader of the files recovers it. -/
theorem readProcessInfo_eq (clkTck : ℕ) : readProcessInfo clkTck p.pid (some p.cmdline)
    (some p.stat.line) =
      if p.Shown then some ⟨p.pid, p.stat.ppid, .finite (p.record clkTck).cputime,
        (p.record clkTck).command⟩ else none := by
  cases hbuffer : fgets pathMax p.cmdline with
  | none =>
    have hnil : p.cmdline = [] := by
      unfold fgets at hbuffer
      split_ifs at hbuffer with hnil
      exact hnil
    rw [if_neg fun h => h.1 hnil, readProcessInfo, Option.bind_some, hbuffer]
    rfl
  | some buffer =>
    have hne : p.cmdline ≠ [] := by
      rintro hnil
      rw [hnil] at hbuffer
      cases hbuffer
    obtain ⟨hzombie, hinfo⟩ :=
      (p.stat.parsed_of_comm p.comm_ne p.comm_paren).2 clkTck p.cmdline buffer hbuffer
    by_cases hshown : p.Shown
    · rw [if_pos hshown]
      cases hread : readProcessInfo clkTck p.stat.pid (some p.cmdline) (some p.stat.line) with
      | none => exact absurd (hzombie.mp hread) hshown.2
      | some info =>
        obtain ⟨hpid, hppid, hcputime, hcommand⟩ := hinfo info hread
        obtain ⟨infoPid, infoPpid, infoCputime, infoCommand⟩ := info
        dsimp only at hpid hppid hcputime hcommand
        rw [pid, hread, hpid, hppid, hcputime, hcommand, record, hbuffer]
        rfl
    · rw [if_neg hshown]
      exact hzombie.mpr (not_not.mp fun h => hshown ⟨hne, h⟩)

end KernelProcess

/-- The link to a parent among these processes. Process 1 is a root. -/
def kernelParent (procs : List KernelProcess) (pid : Pid) : Option Pid :=
  if 1 < pid then
    ((procs.find? fun p => p.pid = pid).map fun p => p.stat.ppid).filter fun ppid => 0 < ppid
  else none

/-- The processes of the kernel, in the order of the directory. -/
structure Kernel where
  procs : List KernelProcess
  clkTck : ℕ
  distinct : (procs.map KernelProcess.pid).Nodup
  acyclic : ∀ pid, ¬ ParentTree.Ancestor (kernelParent procs) pid pid
  grow : ∀ p ∈ procs, ∀ q ∈ procs, q.pid = p.stat.ppid →
    Os.earlierThan p.startTime q.startTime = false

namespace Kernel

variable (k : Kernel)

def fs : ProcFs := ⟨k.procs.map KernelProcess.dir, k.clkTck⟩

/-- The filter wants this process, if it is shown at all. Every process counts as a child of
process 1. -/
def Asked (filter : ProcessFilter) (pid : Pid) : Prop :=
  if Os.readsOne filter then pid = filter.pid
  else filter.pid = 0 ∨ pid = filter.pid ∨
    ParentTree.Ancestor (kernelParent k.procs) filter.pid pid ∨ filter.pid = 1 ∧ 1 < pid

open Classical in
/-- The processes that the filter asks for. -/
noncomputable def wanted (filter : ProcessFilter) : List KernelProcess :=
  k.procs.filter fun p => k.Asked filter p.pid ∧ p.Shown

variable {k}

theorem dir_eq (pid : Pid) :
    k.fs.dir pid = (k.procs.find? fun p => p.pid = pid).map KernelProcess.dir := by
  rw [ProcFs.dir, fs, List.find?_map]
  rfl

theorem find?_eq_some_iff {p : KernelProcess} {pid : Pid} :
    (k.procs.find? fun q => q.pid = pid) = some p ↔ p ∈ k.procs ∧ p.pid = pid :=
  ChainedTable.find?_key_eq_some_iff k.distinct

/-- The links that `getppid_of` reads are those of the kernel. -/
theorem parent_fs : k.fs.parent = kernelParent k.procs := by
  funext pid
  rw [ProcFs.parent, kernelParent, ProcFs.stat, dir_eq]
  by_cases hgt : 1 < pid
  · rw [if_pos hgt]
    cases hfind : k.procs.find? fun p => p.pid = pid with
    | none => simp [getppidOf]
    | some p =>
      obtain ⟨-, hpid⟩ := find?_eq_some_iff.mp hfind
      have hppid : getppidOf pid (some p.stat.line) = p.stat.ppid := by
        rw [← hpid]
        exact (p.stat.parsed_of_comm p.comm_ne p.comm_paren).1
      have hstat : ((some p).map KernelProcess.dir).bind PidDir.stat = some p.stat.line := rfl
      rw [hstat, hppid, Option.map_some, Option.filter_some]
      simp [hgt]
  · rw [if_neg hgt, if_neg fun h => hgt h.1]

theorem acyclic_fs : k.fs.Acyclic := by
  rw [ProcFs.Acyclic, parent_fs]
  exact k.acyclic

theorem startTimesGrow_fs : k.fs.StartTimesGrow := by
  intro pid d e hd he
  rw [dir_eq] at hd he
  obtain ⟨p, hp, rfl⟩ := Option.map_eq_some_iff.mp hd
  obtain ⟨q, hq, rfl⟩ := Option.map_eq_some_iff.mp he
  obtain ⟨hpmem, hpid⟩ := find?_eq_some_iff.mp hp
  obtain ⟨hqmem, hqpid⟩ := find?_eq_some_iff.mp hq
  refine k.grow p hpmem q hqmem (hqpid.trans ?_)
  rw [ProcFs.stat, dir_eq, hp, ← hpid]
  exact (p.stat.parsed_of_comm p.comm_ne p.comm_paren).1

end Kernel

/-! ## Reading the records -/

namespace ProcFs

variable (fs : ProcFs)

/-- The CPU time that `read_process_info` computes, if that is a number. -/
def readCputime (pid : Pid) : ℚ :=
  match readProcessInfo fs.clkTck pid (fs.cmdline pid) (fs.stat pid) with
  | some ⟨_, _, .finite q, _⟩ => q
  | _ => 0

def readCommand (pid : Pid) : List Char :=
  match readProcessInfo fs.clkTck pid (fs.cmdline pid) (fs.stat pid) with
  | some info => info.command
  | none => []

/-- A scan that reads all it uses from these files. -/
def files (fuel : ℕ) : ProcFiles := fs.procFiles fs.readCputime fs.readCommand fuel

end ProcFs

/-- A process is read as the kernel knows it. -/
theorem Kernel.readProcessInfo_files (k : Kernel) (fuel : ℕ) (pid : Pid) :
    (k.fs.files fuel).readProcessInfo pid = (k.procs.find? fun p => p.pid = pid).bind fun p =>
      if p.Shown then some (p.record k.clkTck) else none := by
  have hproc := @ProcFs.proc_os k.fs pid
  rw [dir_eq] at hproc
  change k.fs.os.readProcessInfo pid (k.fs.readCputime pid) (k.fs.readCommand pid) = _
  rw [Os.readProcessInfo, hproc]
  cases hfind : k.procs.find? fun p => p.pid = pid with
  | none => rfl
  | some p =>
    obtain ⟨-, rfl⟩ := find?_eq_some_iff.mp hfind
    have hread : readProcessInfo k.fs.clkTck p.pid (k.fs.cmdline p.pid) (k.fs.stat p.pid) =
        if p.Shown then some ⟨p.pid, p.stat.ppid, .finite (p.record k.clkTck).cputime,
          (p.record k.clkTck).command⟩ else none := by
      rw [ProcFs.cmdline, ProcFs.stat, dir_eq, hfind]
      exact p.readProcessInfo_eq k.clkTck
    have hppid : (k.fs.osProcess p.dir).ppid = p.stat.ppid :=
      (p.stat.parsed_of_comm p.comm_ne p.comm_paren).1
    have hzombie : (k.fs.osProcess p.dir).zombie = !decide p.Shown := by
      change (readProcessInfo k.clkTck p.pid (some p.cmdline) (some p.stat.line)).isNone = _
      rw [p.readProcessInfo_eq]
      split_ifs with hshown <;> simp [hshown]
    have hreadable : (k.fs.osProcess p.dir).readable = true := rfl
    dsimp only [Option.map_some, Option.bind_some]
    rw [hzombie, hreadable, hppid, ProcFs.readCputime, ProcFs.readCommand, hread]
    by_cases hshown : p.Shown
    · simp only [hshown, if_true, decide_true, Bool.not_true, Bool.true_eq_false,
        Bool.false_eq_true, or_self, if_false]
      rfl
    · simp only [hshown, decide_false, Bool.not_false, or_true, if_true, if_false]

/-! ## A scan -/

namespace ProcFiles

variable (files : ProcFiles)

/-- The loop ends with a record that it has read. -/
theorem readProcessInfo_of_readdirLoop {filter : ProcessFilter} {entries rest : List Dirent}
    {p : Process} (h : files.readdirLoop filter entries = some (some (p, rest))) :
    files.readProcessInfo p.pid = some p := by
  induction entries with
  | nil => cases h
  | cons dit entries ih =>
    rw [readdirLoop] at h
    split_ifs at h
    · exact ih h
    · exact ih h
    · cases hpass : files.os.passes files.fuel filter (toPid (atol dit.dName)) with
      | none =>
        rw [hpass] at h
        cases h
      | some passed =>
        rw [hpass] at h
        cases passed with
        | false => exact ih h
        | true =>
          cases hread : files.readProcessInfo (toPid (atol dit.dName)) with
          | none =>
            rw [hread] at h
            exact ih h
          | some found =>
            rw [hread] at h
            cases h
            rw [files.pid_readProcessInfo hread]
            exact hread

theorem readProcessInfo_of_next {it it' : ProcessIterator} {p : Process}
    (h : files.getNextProcess it = some (it', some p)) : files.readProcessInfo p.pid = some p := by
  unfold getNextProcess at h
  cases hdip : it.dip with
  | none => simp [hdip] at h
  | some entries =>
    cases hfilter : it.filter with
    | none => simp [hdip, hfilter] at h
    | some filter =>
      simp only [hdip, hfilter, Option.bind_some] at h
      by_cases hone : Os.readsOne filter
      · rw [if_pos hone, Option.some.injEq, Prod.mk.injEq] at h
        rw [files.pid_readProcessInfo h.2]
        exact h.2
      · rw [if_neg hone, Option.map_eq_some_iff] at h
        obtain ⟨found, hloop, hfound⟩ := h
        rcases found with _ | ⟨found, rest⟩
        · cases hfound
        · cases hfound
          exact files.readProcessInfo_of_readdirLoop hloop

theorem answers_succ (l : List Pid) (calls : ℕ) :
    answers l (calls + 1) = l.head? :: answers l.tail calls := by
  cases l with
  | nil => exact answers_nil_succ calls
  | cons pid l => exact answers_cons_succ pid l calls

theorem next_of_results {it : ProcessIterator} {l : List Pid}
    (h : ∀ calls, files.results calls it = some (answers l calls)) :
    ∃ it' found, files.getNextProcess it = some (it', found) ∧ found.map Process.pid = l.head? ∧
      ∀ calls, files.results calls it' = some (answers l.tail calls) := by
  cases hnext : files.getNextProcess it with
  | none =>
    have hone := h 1
    rw [results, hnext] at hone
    cases hone
  | some next =>
    have hstep : ∀ calls, next.2.map Process.pid = l.head? ∧
        files.results calls next.1 = some (answers l.tail calls) := by
      intro calls
      have hcall := h (calls + 1)
      rw [results, hnext, Option.bind_some, Option.map_eq_some_iff] at hcall
      obtain ⟨later, hlater, heq⟩ := hcall
      rw [answers_succ, List.cons.injEq] at heq
      exact ⟨heq.1, hlater.trans (congrArg some heq.2)⟩
    exact ⟨next.1, next.2, rfl, (hstep 0).1, fun calls => (hstep calls).2⟩

/-- The answers of the calls determine the records. The induction is over the answers. -/
theorem yields_of_results {it : ProcessIterator} {l : List Pid}
    (h : ∀ calls, files.results calls it = some (answers l calls)) {calls : ℕ}
    (hcalls : l.length < calls) :
    files.yields calls it = some (l.filterMap files.readProcessInfo) := by
  induction l generalizing it calls with
  | nil =>
    obtain ⟨calls, rfl⟩ : ∃ n, calls = n + 1 :=
      Nat.exists_eq_add_of_le' (Nat.zero_lt_of_lt hcalls)
    obtain ⟨it', found, hnext, hfound, -⟩ := files.next_of_results h
    rw [List.head?_nil, Option.map_eq_none_iff] at hfound
    subst hfound
    rw [yields, hnext]
    rfl
  | cons pid l ih =>
    obtain ⟨calls, rfl⟩ : ∃ n, calls = n + 1 :=
      Nat.exists_eq_add_of_le' (Nat.zero_lt_of_lt hcalls)
    obtain ⟨it', found, hnext, hfound, hlater⟩ := files.next_of_results h
    rw [List.head?_cons, Option.map_eq_some_iff] at hfound
    obtain ⟨p, rfl, rfl⟩ := hfound
    rw [yields, hnext, Option.bind_some]
    dsimp only
    rw [ih hlater (Nat.lt_of_succ_lt_succ hcalls),
      List.filterMap_cons_some (files.readProcessInfo_of_next hnext)]
    rfl

end ProcFiles

namespace Kernel

variable {k : Kernel}

open Classical in
/-- The walks of `is_child_of` end with the ancestors in the kernel. -/
theorem passes_returns {filter : ProcessFilter} (hmany : ¬ Os.readsOne filter) {pid : Pid}
    (hpid : 0 < pid) :
    Fuel.Returns (fun fuel pid => k.fs.os.passes fuel filter pid) pid
      (decide (k.Asked filter pid)) := by
  have hasked : (filter.pid = 0 ∨ k.fs.InTree filter.pid pid) ↔ k.Asked filter pid := by
    rw [ProcFs.InTree, parent_fs, Asked, if_neg hmany]
  have hreturns := ProcFs.passes_returns k.acyclic_fs k.startTimesGrow_fs hmany hpid
  rwa [decide_eq_decide.mpr hasked] at hreturns

theorem readProcessInfo_of_mem (fuel : ℕ) {p : KernelProcess} (hp : p ∈ k.procs) :
    (k.fs.files fuel).readProcessInfo p.pid =
      if p.Shown then some (p.record k.clkTck) else none := by
  rw [readProcessInfo_files, find?_eq_some_iff.mpr ⟨hp, rfl⟩]
  rfl

theorem readProcessInfo_of_not_mem (fuel : ℕ) {pid : Pid}
    (hpid : pid ∉ k.procs.map KernelProcess.pid) :
    (k.fs.files fuel).readProcessInfo pid = none := by
  have hnone : (k.procs.find? fun p => p.pid = pid) = none := by
    refine List.find?_eq_none.mpr fun p hp heq => hpid ?_
    exact List.mem_map.mpr ⟨p, hp, of_decide_eq_true heq⟩
  rw [readProcessInfo_files, hnone]
  rfl

open Classical in
/-- The selected numbers are read as the wanted processes. -/
theorem filterMap_readProcessInfo (fuel : ℕ) (filter : ProcessFilter) {asks : Pid → Bool}
    (hasks : ∀ pid, asks pid = true ↔ k.Asked filter pid) :
    ((k.procs.map KernelProcess.pid).filter fun pid =>
        asks pid && ((k.fs.files fuel).readProcessInfo pid).isSome).filterMap
      (k.fs.files fuel).readProcessInfo =
    (k.wanted filter).map fun p => p.record k.clkTck := by
  have hwanted : ((k.wanted filter).map fun p => p.record k.clkTck) =
      k.procs.filterMap fun p =>
        if k.Asked filter p.pid ∧ p.Shown then some (p.record k.clkTck) else none := by
    rw [wanted, ← List.filterMap_eq_map, List.filterMap_filter]
    simp
  rw [hwanted, List.filterMap_filter, List.filterMap_map]
  refine List.filterMap_congr fun p hp => ?_
  have hread := readProcessInfo_of_mem fuel hp
  dsimp only [Function.comp_apply]
  by_cases hasked : k.Asked filter p.pid
  · by_cases hshown : p.Shown
    · rw [hread, if_pos hshown, (hasks p.pid).mpr hasked]
      simp [hasked, hshown]
    · rw [hread, if_neg hshown]
      simp [hshown]
  · have hnot : asks p.pid = false := by rw [Bool.eq_false_iff, ne_eq, hasks]; exact hasked
    simp [hasked, hnot]

/-- The scan for one process reads that alone. -/
theorem scan_one (k : Kernel) (entries : List Dirent) {filter : ProcessFilter}
    (hone : Os.readsOne filter) (fuel : ℕ) {calls : ℕ} (hcalls : 1 < calls) :
    (k.fs.files fuel).scan calls (.opened entries) filter =
      some ((k.wanted filter).map fun p => p.record k.clkTck) := by
  have hyields := ProcFiles.yields_of_results _
    (ProcFiles.results_single (k.fs.files fuel) hone entries)
    ((List.length_filter_le _ _).trans_lt hcalls)
  have hasks : ∀ pid, decide (pid = filter.pid) = true ↔ k.Asked filter pid := by
    intro pid
    rw [Asked, if_pos hone, decide_eq_true_iff]
  have hsplit : ((k.procs.map KernelProcess.pid).filter fun pid =>
      decide (pid = filter.pid) && ((k.fs.files fuel).readProcessInfo pid).isSome) =
        ((k.procs.map KernelProcess.pid).filter fun pid => decide (pid = filter.pid)).filter
          fun pid => ((k.fs.files fuel).readProcessInfo pid).isSome := by
    rw [List.filter_filter]
    simp only [Bool.and_comm]
  rw [ProcFiles.scan, initProcessIterator, Option.bind_some, hyields,
    ← filterMap_readProcessInfo fuel filter hasks, hsplit, List.filter_eq]
  by_cases hmem : filter.pid ∈ k.procs.map KernelProcess.pid
  · rw [List.count_eq_one_of_mem k.distinct hmem]
    rfl
  · rw [List.count_eq_zero_of_not_mem hmem]
    simp [readProcessInfo_of_not_mem fuel hmem]

open Classical in
/-- The scan of the directory, where every walk of the filter has ended. -/
theorem scan_many (k : Kernel) {listing : List ProcEntry}
    (hlisting : ProcEntry.pids listing = k.procs.map KernelProcess.pid) {filter : ProcessFilter}
    (hmany : ¬ Os.readsOne filter) {fuel calls : ℕ}
    (hpass : ∀ pid ∈ ProcEntry.pids listing,
      k.fs.os.passes fuel filter pid = some (decide (k.Asked filter pid)))
    (hcalls : k.procs.length < calls) :
    (k.fs.files fuel).scan calls (.opened (listing.map ProcEntry.dirent)) filter =
      some ((k.wanted filter).map fun p => p.record k.clkTck) := by
  have hresults : ∀ calls, (k.fs.files fuel).results calls
      ⟨some (listing.map ProcEntry.dirent), some filter⟩ = some (ProcFiles.answers
        ((k.fs.files fuel).selected (fun pid => decide (k.Asked filter pid)) listing) calls) :=
    ProcFiles.results_listing hmany hpass
  have hlength : ((k.fs.files fuel).selected (fun pid => decide (k.Asked filter pid))
      listing).length < calls := by
    have hle := List.length_filter_le (fun pid => decide (k.Asked filter pid) &&
      ((k.fs.files fuel).readProcessInfo pid).isSome) (ProcEntry.pids listing)
    rw [hlisting, List.length_map, ← hlisting] at hle
    exact hle.trans_lt hcalls
  rw [ProcFiles.scan, initProcessIterator, Option.bind_some,
    ProcFiles.yields_of_results _ hresults hlength, ProcFiles.selected, hlisting,
    filterMap_readProcessInfo fuel filter fun pid => decide_eq_true_iff]

/-- A scan of the files yields the records of the kernel. -/
theorem scan_returns (k : Kernel) {listing : List ProcEntry}
    (hlisting : ProcEntry.pids listing = k.procs.map KernelProcess.pid) (filter : ProcessFilter) :
    ∃ enough, ∀ fuel calls, enough ≤ fuel → enough ≤ calls →
      (k.fs.files fuel).scan calls (.opened (listing.map ProcEntry.dirent)) filter =
        some ((k.wanted filter).map fun p => p.record k.clkTck) := by
  classical
  by_cases hone : Os.readsOne filter
  · exact ⟨2, fun fuel calls _ hcalls => k.scan_one _ hone fuel hcalls⟩
  · have hreturns := fun pid (hpid : pid ∈ ProcEntry.pids listing) =>
      k.passes_returns hone (ProcFs.pos_of_mem_pids hpid)
    obtain ⟨enough, henough⟩ := Fuel.Returns.forall_mem hreturns
    refine ⟨max enough (k.procs.length + 1), fun fuel calls hfuel hcalls => ?_⟩
    exact k.scan_many hlisting hone (henough fuel ((le_max_left _ _).trans hfuel))
      ((le_max_right _ _).trans hcalls)

end Kernel

/-! ## The group and the kernel -/

/-- What an update finds: the time, the processes, and the entries of /proc. -/
structure KernelImage where
  now : Timespec
  kernel : Kernel
  listing : List ProcEntry
  listing_pids : ProcEntry.pids listing = kernel.procs.map KernelProcess.pid

namespace KernelImage

variable (image : KernelImage)

/-- What a caller gets that reads the files; `none` is out of fuel. -/
def scan (fuel : ℕ) (filter : ProcessFilter) (image : KernelImage) : Option (List Process) :=
  (image.kernel.fs.files fuel).scan fuel (.opened (image.listing.map ProcEntry.dirent)) filter

/-- The records of the processes that the filter asks for. -/
noncomputable def records (filter : ProcessFilter) : List Process :=
  (image.kernel.wanted filter).map fun p => p.record image.kernel.clkTck

theorem pid_records (filter : ProcessFilter) :
    (image.records filter).map Process.pid =
      (image.kernel.wanted filter).map KernelProcess.pid := by
  rw [records, List.map_map]
  rfl

theorem validScan_records (filter : ProcessFilter) : ValidScan (image.records filter) := by
  refine ⟨?_, fun tmp htmp => ?_⟩
  · classical
    rw [pid_records, Kernel.wanted]
    exact image.kernel.distinct.sublist (List.filter_sublist.map KernelProcess.pid)
  · obtain ⟨p, -, rfl⟩ := List.mem_map.mp htmp
    exact p.stat.pid_pos

theorem scan_returns (filter : ProcessFilter) :
    Fuel.Returns (fun fuel => scan fuel filter) image (image.records filter) := by
  obtain ⟨enough, hscan⟩ := image.kernel.scan_returns image.listing_pids filter
  exact ⟨enough, fun fuel hfuel => hscan fuel fuel hfuel hfuel⟩

end KernelImage

/-- The operations on a group whose updates read the files. -/
inductive FileOp
  | update (image : KernelImage)
  | removeProcess (pid : Pid)
  | dropMember (node : ℕ)

namespace ProcessGroup

def applyFiles (fuel : ℕ) (g : ProcessGroup) : FileOp → Option ProcessGroup
  | .update image => (image.scan fuel g.filter).map fun yielded => g.update image.now yielded
  | .removeProcess pid => some (g.removeProcess pid)
  | .dropMember node => some (g.dropMember node)

end ProcessGroup

/-- The operation with the records of the kernel. -/
noncomputable def FileOp.op (filter : ProcessFilter) : FileOp → Op
  | .update image => .update image.now (image.records filter)
  | .removeProcess pid => .removeProcess pid
  | .dropMember node => .dropMember node

theorem FileOp.valid_op (filter : ProcessFilter) (op : FileOp) : (op.op filter).Valid := by
  cases op with
  | update image => exact image.validScan_records filter
  | removeProcess pid => trivial
  | dropMember node => trivial

/-- No operation changes what the group asks for. -/
theorem ProcessGroup.filter_apply (g : ProcessGroup) (op : Op) :
    (g.apply op).filter = g.filter := by
  cases op with
  | update now yielded =>
    obtain ⟨hpid, hchildren⟩ :=
      targetPid_foldl_updateStep (timediffInMs now g.lastUpdate) yielded g.clearMembers
    obtain ⟨hpid', hchildren'⟩ := System.targetPid_stamp now
      (yielded.foldl (updateStep (timediffInMs now g.lastUpdate)) g.clearMembers)
    rw [filter, filter, apply, update, hpid', hchildren', hpid, hchildren]
    rfl
  | removeProcess pid => rfl
  | dropMember node =>
    rw [apply, dropMember]
    split <;> rfl

/-- With enough fuel an operation from the files is the one over the kernel. -/
theorem ProcessGroup.applyFiles_returns (g : ProcessGroup) (op : FileOp) :
    Fuel.Returns (fun fuel => applyFiles fuel g) op (g.apply (op.op g.filter)) := by
  cases op with
  | update image =>
    obtain ⟨enough, hscan⟩ := image.scan_returns g.filter
    refine ⟨enough, fun fuel hfuel => ?_⟩
    have hrecords : image.scan fuel g.filter = some (image.records g.filter) := hscan fuel hfuel
    dsimp only [applyFiles]
    rw [hrecords]
    rfl
  | removeProcess pid => exact ⟨0, fun _ _ => rfl⟩
  | dropMember node => exact ⟨0, fun _ _ => rfl⟩

/-- The same for a history, whose operations share their fuel. -/
theorem ProcessGroup.runFiles_returns (g : ProcessGroup) (ops : List FileOp) :
    Fuel.Returns (fun fuel => Runs.runPartial (applyFiles fuel) g) ops
      (Runs.run apply g (ops.map (FileOp.op g.filter))) := by
  induction ops generalizing g with
  | nil => exact ⟨0, fun _ _ => rfl⟩
  | cons op ops ih =>
    obtain ⟨n, hn⟩ := g.applyFiles_returns op
    obtain ⟨m, hm⟩ := ih (g.apply (op.op g.filter))
    rw [filter_apply] at hm
    refine ⟨max n m, fun fuel hfuel => ?_⟩
    have hstep := hn fuel ((le_max_left _ _).trans hfuel)
    dsimp only at hstep ⊢
    rw [Runs.runPartial, hstep, Option.bind_some, List.map_cons, Runs.run_cons]
    exact hm fuel ((le_max_right _ _).trans hfuel)

/-- The text of the files, the scan of the directory and the hash table drop out: to the
caller, the group maps each wanted process to what the kernel said of it. -/
theorem groupReadsKernel (target : Pid) (includeChildren : Bool) (start : Timespec)
    (ops : List FileOp) :
    ∃ enough, ∀ fuel, enough ≤ fuel →
      ∃ g, Runs.runPartial (applyFiles fuel) (fresh target includeChildren start) ops = some g ∧
        g.view = Runs.run GroupView.apply ⟨fun _ => none, [], start⟩
          (ops.map (FileOp.op ⟨target, includeChildren⟩)) := by
  obtain ⟨enough, henough⟩ := (fresh target includeChildren start).runFiles_returns ops
  refine ⟨enough, fun fuel hfuel => ⟨_, henough fuel hfuel, ?_⟩⟩
  have hempty : (fresh target includeChildren start).view = ⟨fun _ => none, [], start⟩ :=
    GroupView.ext (funext (lookup_fresh target includeChildren start)) rfl rfl
  rw [← hempty]
  refine view_run (tableSound_fresh target includeChildren start) fun op hop => ?_
  obtain ⟨fileOp, -, rfl⟩ := List.mem_map.mp hop
  exact fileOp.valid_op _

theorem Kernel.acyclic_of_procs {procs : List KernelProcess}
    (h : ∀ p ∈ procs, p.stat.ppid < p.pid) (pid : Pid) :
    ¬ ParentTree.Ancestor (kernelParent procs) pid pid := by
  refine ParentTree.acyclic_of_lt (fun child parent hlink => ?_) pid
  unfold kernelParent at hlink
  split_ifs at hlink
  rw [Option.filter_eq_some_iff, Option.map_eq_some_iff] at hlink
  obtain ⟨⟨p, hp, rfl⟩, -⟩ := hlink
  have hpid : p.pid = child := by simpa using List.find?_some hp
  exact hpid ▸ h p (List.mem_of_find?_eq_some hp)

/-- A sleeping process. -/
def plainProcess (pid ppid : Pid) (utime : ℕ)
    (h : (0 < pid ∧ pid < 2147483648) ∧ 0 ≤ ppid ∧ ppid < pid) : KernelProcess where
  stat :=
    { StatRecord.sleeping pid h.1.1 ['a'] (by simp) 0 (Or.inl rfl) with
      ppid := ppid
      utime := utime
      ppid_range := ⟨le_trans (by norm_num) h.2.1, h.2.2.trans h.1.2⟩ }
  cmdline := ['a']
  startTime := ⟨0, 0⟩
  startReadable := true
  pid_lt := h.1.2
  comm_ne := by simp [StatRecord.sleeping]
  comm_paren := by simp [StatRecord.sleeping]

/-- Process 9 runs below process 7. -/
def plainKernel (utime : ℕ) : Kernel where
  procs := [plainProcess 9 7 utime (by decide), plainProcess 1 0 0 (by decide),
    plainProcess 7 1 0 (by decide), plainProcess 8 1 0 (by decide)]
  clkTck := 100
  distinct := by simp [plainProcess, KernelProcess.pid, StatRecord.sleeping]
  acyclic := Kernel.acyclic_of_procs (by
    simp [plainProcess, KernelProcess.pid, StatRecord.sleeping])
  grow := by simp [plainProcess, Os.earlierThan]

def plainImage (ms : ℤ) (utime : ℕ) : KernelImage :=
  ⟨⟨0, ms * 1000000⟩, plainKernel utime, ProcFs.zombieListing, rfl⟩

/-- Process 9 uses half of a CPU for 100 milliseconds. -/
def plainHistory : List FileOp := [.update (plainImage 30 0), .update (plainImage 130 5)]

example : ((Runs.runPartial (applyFiles 5) (fresh 7 true ⟨0, 0⟩) plainHistory).map fun g =>
    (g.memberPids, (g.lookup 9).map Process.cpuUsage)) = some ([9, 7], some (1 / 2)) := by
  decide +kernel

end CpuLimit
