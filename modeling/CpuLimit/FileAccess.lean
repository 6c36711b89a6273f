import CpuLimit.Limiter

/-!
# limit_process, one file at a time

In `Limiter` a walk of `is_child_of` is one step and follows the links as they are.
Here every access to a file under /proc is a step of its own, so that anything may
happen in the middle of a walk, and a stat file holds the kernel's line, with
whatever name its process has chosen. A walk that nothing interrupts and that meets
no misleading name gives the answer of `is_child_of` in `ProcessIterator`.
-/
namespace CpuLimit

open Library Library.Scanf

namespace Os

variable (os : Os)

/-- The stat file of `pid` shows this record at the moment; `none` stands for a file
that cannot be opened. The name is up to the process. -/
def showsStat (pid : Pid) (record : Option StatRecord) : Bool :=
  match os.proc pid, record with
  | none, none => true
  | none, some _ => false
  | some p, none => !p.readable
  | some p, some r =>
    p.readable &&
      decide (r.pid = pid ∧ r.ppid = p.ppid ∧ p.zombie = isZombieState r.state)

/-- The command line of `pid`, where an empty one also stands for a file that cannot
be opened: `read_process_info` gives up on both. A zombie has none. -/
def showsCmdline (pid : Pid) (content : List Char) : List Char :=
  match os.proc pid with
  | none => []
  | some p => if p.readable = false ∨ p.zombie = true then [] else content

end Os

/-- The record that `read_process_info` fills in. A CPU time that is not a number, which
only a name can imitate, is left open. -/
def ProcessInfo.process (info : ProcessInfo) (cputime : ℚ) : Process where
  pid := info.pid
  ppid := info.ppid
  cputime :=
    match info.cputime with
    | .finite q => q
    | _ => cputime
  cpuUsage := 0
  command := info.command

theorem ProcessInfo.pid_of_readProcessInfo {clkTck : ℕ} {pid : Pid}
    {cmdline stat : Option (List Char)} {info : ProcessInfo}
    (h : readProcessInfo clkTck pid cmdline stat = some info) : info.pid = pid := by
  simp only [readProcessInfo, Option.bind_eq_some_iff] at h
  obtain ⟨buffer, -, content, -, hscan⟩ := h
  split at hscan
  · split_ifs at hscan
    cases hscan
    rfl
  · cases hscan

/-- The next access to a file: to the start times of the target and of a child, and to
a parent, in `is_child_of`, and to the second file of `read_process_info`. -/
inductive Access
  | parentStart
  | childStart (parentStart : Option Timespec) (childPid : Pid)
  | getppid (parentStart : Option Timespec) (childPid : Pid)
  | stat (cmdline : List Char)

/-- The process that `is_child_of` has arrived at. -/
def Access.childPid : Access → Option Pid
  | .childStart _ childPid => some childPid
  | .getppid _ childPid => some childPid
  | _ => none

/-- What the files show in one step, on top of what the other steps ask for. -/
structure Contents extends Answer where
  cmdline : List Char
  record : Option StatRecord

/-- A step of the environment, or of the limiter with what it reads. -/
inductive FileEvent
  | env (event : Os.EnvEvent)
  | limiter (contents : Contents)

/-- The limiter between two accesses. There is none to come except within
`is_child_of` and `read_process_info`. -/
structure Stepwise where
  system : System
  access : Option Access

namespace Stepwise

def start (os : Os) (target : Pid) (includeChildren : Bool) (now : Timespec) (timeSlot : ℚ) :
    Stepwise :=
  ⟨System.start os target includeChildren now timeSlot, none⟩

variable (s : Stepwise)

/-- `get_next_process` goes on with the next entry. -/
def nextEntry (now : Timespec) (entries : List Pid) : Stepwise :=
  ⟨{ s.system with pc := .scanning now entries }, none⟩

/-- `get_next_process` goes on with `read_process_info`. -/
def readEntry (now : Timespec) (pid : Pid) (entries : List Pid) : Stepwise :=
  ⟨{ s.system with pc := .reading now pid entries }, none⟩

/-- The tests of `get_next_process` and `is_child_of` that come before any access. -/
def entryStep (now : Timespec) (pid : Pid) (entries : List Pid) : Stepwise :=
  if Os.readsOne s.system.filter then s.readEntry now pid entries
  else if pid ≤ 0 then s.nextEntry now entries
  else if s.system.filter.pid ≠ 0 ∧ s.system.filter.pid ≠ pid then
    if pid ≤ 1 ∨ s.system.filter.pid ≤ 0 ∨ pid = s.system.filter.pid then s.nextEntry now entries
    else if s.system.filter.pid = 1 then s.readEntry now pid entries
    else { s with access := some .parentStart }
  else s.readEntry now pid entries

/-- One access of `is_child_of`, which is asked about the entry `pid`. -/
def walkStep (k : Contents) (now : Timespec) (pid : Pid) (entries : List Pid) :
    Access → Option Stepwise
  | .parentStart =>
    some { s with access := some (.childStart (s.system.os.getStartTime s.system.filter.pid) pid) }
  | .childStart parentStart childPid =>
    some (if childPid ≤ 1 then s.nextEntry now entries
      else if s.system.os.startedBefore childPid parentStart then s.nextEntry now entries
      else { s with access := some (.getppid parentStart childPid) })
  | .getppid parentStart childPid =>
    if s.system.os.showsStat childPid k.record then
      let childPid := getppidOf childPid (k.record.map StatRecord.line)
      some (if childPid = s.system.filter.pid then s.readEntry now pid entries
        else { s with access := some (.childStart parentStart childPid) })
    else none
  | .stat _ => none

/-- One access of `read_process_info`, and what `update_process_group` makes of the record. -/
def readStep (clkTck : ℕ) (k : Contents) (now : Timespec) (pid : Pid) (entries : List Pid) :
    Option Access → Option Stepwise
  | none =>
    let cmdline := s.system.os.showsCmdline pid k.cmdline
    some (if (fgets pathMax cmdline).isNone then s.nextEntry now entries
      else { s with access := some (.stat cmdline) })
  | some (.stat cmdline) =>
    if s.system.os.showsStat pid k.record then
      match readProcessInfo clkTck pid (some cmdline) (k.record.map StatRecord.line) with
      | none => some (s.nextEntry now entries)
      | some info =>
        some ⟨{ s.system with
          group := ProcessGroup.updateStep (timediffInMs now s.system.group.lastUpdate)
            s.system.group (info.process k.cputime)
          pc := .scanning now entries }, none⟩
    else none
  | some _ => none

/-- One step of the limiter; `none` as in `System.limiterStep`, and when the files do not
show what the step is said to read. -/
def limiterStep (clkTck : ℕ) (c : Setting) (k : Contents) : Option Stepwise :=
  match s.system.pc with
  | .scanning now (pid :: entries) =>
    match s.access with
    | none => some (s.entryStep now pid entries)
    | some access => s.walkStep k now pid entries access
  | .reading now pid entries => s.readStep clkTck k now pid entries s.access
  | _ => (s.system.limiterStep c k.toAnswer).map fun t => ⟨t, none⟩

def step (clkTck : ℕ) (c : Setting) (s : Stepwise) : FileEvent → Option Stepwise
  | .env event =>
    if event.Spares c.self then
      (s.system.os.envStep event).map fun os => ⟨{ s.system with os := os }, s.access⟩
    else none
  | .limiter k => s.limiterStep clkTck c k

end Stepwise

/-! ## Names -/

namespace StatRecord

variable (r : StatRecord)

/-- The name makes `getppid_of` find a process that is not the parent. -/
def Imitates : Prop :=
  1 < getppidOf r.pid (some r.line) ∧ getppidOf r.pid (some r.line) ≠ r.ppid

variable {r}

/-- It takes a closing parenthesis in the name. -/
theorem not_imitates_of_comm (hcomm : ')' ∉ r.comm) : ¬ r.Imitates := by
  rintro ⟨hgt, hne⟩
  by_cases hnil : r.comm = []
  · have hscan : scan getppidFormat r.line = [] := by
      rw [getppidFormat_eq, line, hnil, List.nil_append, scan_header_nil]
    simp [getppidOf, hscan, not_le.mpr r.pid_pos] at hgt
  · exact hne (r.parsed_of_comm hnil hcomm).1

theorem shell_comm : ∀ c ∈ [ 's', 'h'], c ≠ '\x00' ∧ c ≠ '\n' := by simp

theorem shell_state (zombie : Bool) : isSpace (if zombie then 'Z' else 'S') = false ∧
    (if zombie then 'Z' else 'S') ≠ '\x00' := by
  cases zombie <;> decide

theorem shell_fields : (List.replicate 9 (0 : ℤ)).length = 9 := by simp

theorem shell_trailing : Ends [] := by simp [Ends]

/-- The record of a process named sh that has not used the CPU yet. -/
def shell (pid ppid : Pid) (zombie : Bool) (hpid : 0 < pid)
    (hppid : -2147483648 ≤ ppid ∧ ppid < 2147483648) : StatRecord where
  pid := pid
  comm := [ 's', 'h']
  state := if zombie then 'Z' else 'S'
  ppid := ppid
  fields := List.replicate 9 0
  utime := 0
  stime := 0
  trailing := []
  pid_pos := hpid
  comm_text := shell_comm
  state_visible := shell_state zombie
  ppid_range := hppid
  fields_length := shell_fields
  trailing_ends := shell_trailing

variable {pid ppid : Pid} {zombie : Bool} (hpid : 0 < pid)
  (hppid : -2147483648 ≤ ppid ∧ ppid < 2147483648)

theorem not_mem_comm_shell : ')' ∉ (shell pid ppid zombie hpid hppid).comm := by
  simp [shell]

theorem parsed_shell : (shell pid ppid zombie hpid hppid).Parsed :=
  parsed_of_comm _ (by simp [shell]) (not_mem_comm_shell hpid hppid)

theorem isZombieState_shell :
    isZombieState (shell pid ppid zombie hpid hppid).state = zombie := by
  show isZombieState (if zombie then 'Z' else 'S') = zombie
  cases zombie <;> decide

end StatRecord

/-! ## Walks that nothing interrupts -/

/-- Every parent is a value of `pid_t`. -/
def Os.FitsPidT (os : Os) : Prop :=
  ∀ pid p, os.proc pid = some p → -2147483648 ≤ p.ppid ∧ p.ppid < 2147483648

theorem Os.fitsPidT_of_procs {os : Os}
    (h : ∀ p ∈ os.procs, -2147483648 ≤ p.ppid ∧ p.ppid < 2147483648) : os.FitsPidT :=
  fun _ p hp => h p (mem_of_proc hp).1

theorem showsStat_shell {os : Os} {pid : Pid} {p : OsProcess} (hp : os.proc pid = some p)
    (hread : p.readable = true) (hpos : 0 < pid)
    (hppid : -2147483648 ≤ p.ppid ∧ p.ppid < 2147483648) :
    os.showsStat pid (some (.shell pid p.ppid p.zombie hpos hppid)) = true := by
  simp only [Os.showsStat, hp, hread, Bool.true_and, decide_eq_true_eq]
  exact ⟨rfl, rfl, (StatRecord.isZombieState_shell hpos hppid).symm⟩

/-- Under an ordinary name `getppid_of` returns the parent. -/
theorem exists_showsStat {os : Os} (hfits : os.FitsPidT) {pid : Pid} (hpos : 0 < pid) :
    ∃ record, os.showsStat pid record = true ∧
      getppidOf pid (record.map StatRecord.line) = os.getppidOf pid ∧
      ∀ r, record = some r → ¬ r.Imitates := by
  have hnot : ¬ pid ≤ 0 := not_le.mpr hpos
  cases hp : os.proc pid with
  | none => exact ⟨none, by simp [Os.showsStat, hp], by simp [getppidOf, Os.getppidOf, hp], by simp⟩
  | some p =>
    cases hr : p.readable with
    | false =>
      exact ⟨none, by simp [Os.showsStat, hp, hr], by simp [getppidOf, Os.getppidOf, hp, hr],
        by simp⟩
    | true =>
      refine ⟨some (.shell pid p.ppid p.zombie hpos (hfits pid p hp)),
        showsStat_shell hp hr hpos (hfits pid p hp), ?_, ?_⟩
      · rw [Option.map_some, Os.getppidOf, if_neg hnot, hp]
        simp only [hr, if_true]
        exact (StatRecord.parsed_shell hpos (hfits pid p hp)).1
      · rintro r ⟨⟩
        exact StatRecord.not_imitates_of_comm (StatRecord.not_mem_comm_shell _ _)

namespace Stepwise

/-- The next access of a walk that decides about `self`. -/
def walkOf (s : Stepwise) (self : Pid) : Option Access :=
  match s.system.pc with
  | .scanning _ (pid :: _) => if pid = self then s.access else none
  | _ => none

/-- While a walk for `self` has arrived at a process, no new process gets the `pid` of
that one, and its name does not make `getppid_of` find a process that is not its parent. -/
def Plain (self : Pid) (s : Stepwise) : FileEvent → Stepwise → Prop
  | .env (.fork _ child _ _), _ =>
    ∀ access, s.walkOf self = some access → access.childPid ≠ some child
  | .env _, _ => True
  | .limiter k, _ => ∀ parentStart childPid r,
    s.walkOf self = some (.getppid parentStart childPid) → k.record = some r → ¬ r.Imitates

variable {clkTck : ℕ} {c : Setting} {s : System} {now : Timespec} {pid : Pid}
  {entries : List Pid}

/-- A walk without interruption gives the answer of the loop of `is_child_of`. The
induction is over its fuel. -/
theorem reaches_walk (hfits : s.os.FitsPidT) (hpc : s.pc = .scanning now (pid :: entries))
    (a : Answer) (self : Pid) {parentStart : Option Timespec} {fuel : ℕ} {childPid : Pid}
    {ok : Bool}
    (h : s.os.isChildOfLoop s.filter.pid parentStart fuel childPid = some ok) :
    Runs.ReachesAlong (step clkTck c) (Plain self)
      ⟨s, some (.childStart parentStart childPid)⟩
      ⟨{ s with pc := if ok then .reading now pid entries else .scanning now entries }, none⟩ := by
  induction fuel generalizing childPid with
  | zero => cases h
  | succ fuel ih =>
    -- the test at the top of the loop
    have hfirst : ∀ t, walkStep ⟨s, some (.childStart parentStart childPid)⟩ ⟨a, [], none⟩ now pid
        entries (.childStart parentStart childPid) = some t →
        Runs.ReachesAlong (step clkTck c) (Plain self)
          ⟨s, some (.childStart parentStart childPid)⟩ t := by
      intro t ht
      refine .single (i := .limiter ⟨a, [], none⟩) ?_ ?_
      · simp only [step, limiterStep, hpc]
        exact ht
      · rintro _ _ r - ⟨⟩
    rw [Os.isChildOfLoop] at h
    by_cases hle : childPid ≤ 1
    · rw [if_pos hle] at h
      cases h
      exact hfirst _ (by simp [walkStep, hle, nextEntry])
    by_cases hstart : s.os.startedBefore childPid parentStart = true
    · rw [if_neg hle, if_pos hstart] at h
      cases h
      exact hfirst _ (by simp [walkStep, hle, hstart, nextEntry])
    rw [if_neg hle, if_neg hstart] at h
    refine (hfirst ⟨s, some (.getppid parentStart childPid)⟩
      (by simp [walkStep, hle, hstart])).trans ?_
    obtain ⟨record, hshows, hppid, hplain⟩ :=
      exists_showsStat hfits (lt_trans zero_lt_one (not_le.mp hle))
    have hsecond : ∀ t, walkStep ⟨s, some (.getppid parentStart childPid)⟩ ⟨a, [], record⟩ now pid
        entries (.getppid parentStart childPid) = some t →
        step clkTck c ⟨s, some (.getppid parentStart childPid)⟩ (.limiter ⟨a, [], record⟩) =
          some t := by
      intro t ht
      simp only [step, limiterStep, hpc]
      exact ht
    have hgood : ∀ t, Plain self ⟨s, some (.getppid parentStart childPid)⟩
        (.limiter ⟨a, [], record⟩) t := fun t _ _ r _ hr => hplain r hr
    by_cases hfound : s.os.getppidOf childPid = s.filter.pid
    · rw [if_pos hfound] at h
      cases h
      refine .single (hsecond _ ?_) (hgood _)
      simp [walkStep, hshows, hppid, hfound, readEntry]
    · rw [if_neg hfound] at h
      refine .head (hsecond _ ?_) (hgood _) (ih h)
      simp [walkStep, hshows, hppid, hfound]

/-- A step of the coarser machine that filters an entry is a walk without interruption. -/
theorem reaches_filter (hfits : s.os.FitsPidT) (hpc : s.pc = .scanning now (pid :: entries))
    {a : Answer} {t : System} (hs : s.limiterStep c a = some t) (self : Pid) :
    Runs.ReachesAlong (step clkTck c) (Plain self) ⟨s, none⟩ ⟨t, none⟩ := by
  simp only [System.limiterStep, hpc, Option.map_eq_some_iff] at hs
  obtain ⟨ok, hpass, rfl⟩ := hs
  have hentry : step clkTck c ⟨s, none⟩ (.limiter ⟨a, [], none⟩) =
      some (entryStep ⟨s, none⟩ now pid entries) := by
    simp only [step, limiterStep, hpc]
  have hplain : ∀ u t, Plain self u (.limiter ⟨a, [], none⟩) t := fun u t _ _ r _ hr => by cases hr
  have hfirst := Runs.ReachesAlong.single hentry (hplain _ _)
  unfold Os.passes at hpass
  by_cases hone : Os.readsOne s.filter
  · rw [if_pos hone] at hpass
    cases hpass
    rw [entryStep, if_pos hone] at hfirst
    exact hfirst
  rw [if_neg hone] at hpass
  by_cases hle : pid ≤ 0
  · rw [if_pos hle] at hpass
    cases hpass
    rw [entryStep, if_neg hone, if_pos hle] at hfirst
    exact hfirst
  rw [if_neg hle] at hpass
  by_cases hother : s.filter.pid ≠ 0 ∧ s.filter.pid ≠ pid
  · rw [if_pos hother, Os.isChildOf] at hpass
    by_cases hguard : pid ≤ 1 ∨ s.filter.pid ≤ 0 ∨ pid = s.filter.pid
    · rw [if_pos hguard] at hpass
      cases hpass
      rw [entryStep, if_neg hone, if_neg hle, if_pos hother, if_pos hguard] at hfirst
      exact hfirst
    rw [if_neg hguard] at hpass
    by_cases hinit : s.filter.pid = 1
    · rw [if_pos hinit] at hpass
      cases hpass
      rw [entryStep, if_neg hone, if_neg hle, if_pos hother, if_neg hguard, if_pos hinit] at hfirst
      exact hfirst
    rw [if_neg hinit] at hpass
    have hsecond : step clkTck c ⟨s, some .parentStart⟩ (.limiter ⟨a, [], none⟩) =
        some ⟨s, some (.childStart (s.os.getStartTime s.filter.pid) pid)⟩ := by
      simp only [step, limiterStep, hpc, walkStep]
    rw [entryStep, if_neg hone, if_neg hle, if_pos hother, if_neg hguard, if_neg hinit] at hfirst
    exact hfirst.trans (.head hsecond (hplain _ _) (reaches_walk hfits hpc a self hpass))
  · rw [if_neg hother] at hpass
    cases hpass
    rw [entryStep, if_neg hone, if_neg hle, if_neg hother] at hfirst
    exact hfirst

/-- A process that lives and can be read is read in two accesses and joins the group. -/
theorem reaches_join (hfits : s.os.FitsPidT) (hpc : s.pc = .reading now pid entries)
    (hpos : 0 < pid) (halive : s.os.alive pid = true)
    (hread : ∀ p, s.os.proc pid = some p → p.readable = true) (a : Answer) (self : Pid) :
    ∃ tmp : Process, tmp.pid = pid ∧
      Runs.ReachesAlong (step clkTck c) (Plain self) ⟨s, none⟩
        ⟨{ s with
          group := s.group.updateStep (timediffInMs now s.group.lastUpdate) tmp
          pc := .scanning now entries }, none⟩ := by
  obtain ⟨p, hp, hz⟩ := Os.alive_iff.mp halive
  let r := StatRecord.shell pid p.ppid p.zombie hpos (hfits pid p hp)
  have hshows : s.os.showsStat pid (some r) = true :=
    showsStat_shell hp (hread p hp) hpos (hfits pid p hp)
  have hcmdline : s.os.showsCmdline pid [ 's', 'h'] = [ 's', 'h'] := by
    simp [Os.showsCmdline, hp, hread p hp, hz]
  have hbuffer : fgets pathMax [ 's', 'h'] = some [ 's', 'h'] := by decide
  obtain ⟨hfails, hinfo⟩ :=
    (StatRecord.parsed_shell hpos (hfits pid p hp)).2 clkTck _ _ hbuffer
  cases hinfo' : readProcessInfo clkTck pid (some [ 's', 'h']) (some r.line) with
  | none =>
    have hzombie := (isZombieState_iff r.state_visible.2).mpr (hfails.mp hinfo')
    rw [StatRecord.isZombieState_shell, hz] at hzombie
    cases hzombie
  | some info =>
    have hfirst : step clkTck c ⟨s, none⟩ (.limiter ⟨a, [ 's', 'h'], none⟩) =
        some ⟨s, some (.stat [ 's', 'h'])⟩ := by
      simp [step, limiterStep, hpc, readStep, hcmdline, hbuffer]
    have hsecond : step clkTck c ⟨s, some (.stat [ 's', 'h'])⟩ (.limiter ⟨a, [], some r⟩) =
        some ⟨{ s with
          group := s.group.updateStep (timediffInMs now s.group.lastUpdate)
            (info.process a.cputime)
          pc := .scanning now entries }, none⟩ := by
      simp [step, limiterStep, hpc, readStep, hshows, hinfo']
    have hplain : ∀ access k t, Plain self ⟨s, access⟩ (.limiter k) t := by
      intro access k t start child r hwalk
      simp [walkOf, hpc] at hwalk
    exact ⟨info.process a.cputime, (hinfo info hinfo').1,
      .head hfirst (hplain _ _ _) (.single hsecond (hplain _ _ _))⟩

end Stepwise

end CpuLimit
