import CpuLimit.ProcStat

/-!
# Processes as the limiter sees them

The operating system around the limiter: the process table behind /proc and
`kill`, and what can happen to it between two steps of the limiter. On it,
`getppid_of`, `is_child_of` and `read_process_info` of
`process_iterator_linux.c`. A process is known by what its stat line says; that
the readers get it from the line is shown where the names of processes allow it.
-/
namespace CpuLimit

inductive Signal
  | cont
  | stop
  deriving DecidableEq

/-- A process. `lastSignal` is the last of the two signals that the current run
of `limit_process` has successfully sent it. -/
structure OsProcess where
  pid : Pid
  ppid : Pid
  zombie : Bool
  startTime : Timespec
  readable : Bool
  startReadable : Bool
  permitted : Bool
  lastSignal : Option Signal
  deriving DecidableEq

structure Os where
  procs : List OsProcess
  procOpens : Bool
  quitFlag : Bool

namespace Os

variable (os : Os)

def proc (pid : Pid) : Option OsProcess := os.procs.find? fun p => p.pid = pid

/-- The process exists and has not exited. -/
def alive (pid : Pid) : Bool := (os.proc pid).any fun p => !p.zombie

/-! ## The Linux process iterator -/

/-- `read_process_info`: the record of a zombie is refused. CPU time and command
are whatever the files hold at the moment. -/
def readProcessInfo (pid : Pid) (cputime : ℚ) (command : List Char) : Option Process :=
  match os.proc pid with
  | none => none
  | some p =>
    if p.readable = false ∨ p.zombie = true then none
    else some { pid := pid, ppid := p.ppid, cputime := cputime, cpuUsage := 0, command := command }

/-- `getppid_of`, under a name that lets it find the parent in the stat line. -/
def getppidOf (pid : Pid) : Pid :=
  if pid ≤ 0 then -1
  else
    match os.proc pid with
    | none => -1
    | some p => if p.readable then p.ppid else -1

/-- `get_start_time`; `none` is its failure. -/
def getStartTime (pid : Pid) : Option Timespec :=
  match os.proc pid with
  | none => none
  | some p => if p.startReadable then some p.startTime else none

def earlierThan (t1 t2 : Timespec) : Bool :=
  t1.tvSec < t2.tvSec || (t1.tvSec = t2.tvSec && t1.tvNsec < t2.tvNsec)

/-- The test at the top of the loop of `is_child_of`. -/
def startedBefore (childPid : Pid) : Option Timespec → Bool
  | none => false
  | some parentStart =>
    match os.getStartTime childPid with
    | none => false
    | some childStart => earlierThan childStart parentStart

/-- The loop of `is_child_of`; `none` when the fuel runs out. -/
def isChildOfLoop (parentPid : Pid) (parentStart : Option Timespec) : ℕ → Pid → Option Bool
  | 0, _ => none
  | fuel + 1, childPid =>
    if childPid ≤ 1 then some false
    else if os.startedBefore childPid parentStart then some false
    else
      let childPid := os.getppidOf childPid
      if childPid = parentPid then some true else isChildOfLoop parentPid parentStart fuel childPid

def isChildOf (fuel : ℕ) (childPid parentPid : Pid) : Option Bool :=
  if childPid ≤ 1 ∨ parentPid ≤ 0 ∨ childPid = parentPid then some false
  else if parentPid = 1 then some true
  else os.isChildOfLoop parentPid (os.getStartTime parentPid) fuel childPid

/-- The scan reads one record, not the directory. -/
def readsOne (filter : ProcessFilter) : Prop := filter.pid ≠ 0 ∧ filter.includeChildren = false

instance (filter : ProcessFilter) : Decidable (readsOne filter) :=
  inferInstanceAs (Decidable (_ ∧ _))

/-- The entries that `get_next_process` will go through, given the numeric names
that the directory will show. It does show every process that exists when it is
opened, once; `none` stands for names that do not. -/
def opened (filter : ProcessFilter) (listing : List Pid) : Option (List Pid) :=
  if os.procOpens = false then some []
  else if readsOne filter then some [filter.pid]
  else if listing.Nodup ∧ ∀ p ∈ os.procs, p.pid ∈ listing then some listing
  else none

/-- The filter of `get_next_process`, which only entries of the directory meet. -/
def passes (fuel : ℕ) (filter : ProcessFilter) (pid : Pid) : Option Bool :=
  if readsOne filter then some true
  else if pid ≤ 0 then some false
  else if filter.pid ≠ 0 ∧ filter.pid ≠ pid then os.isChildOf fuel pid filter.pid
  else some true

/-! ## Signals -/

/-- Apply a change to every process. -/
def modify (f : OsProcess → OsProcess) : Os := { os with procs := os.procs.map f }

/-- `kill` succeeds: the process exists, be it as a zombie, and may be signalled. -/
def killSucceeds (pid : Pid) : Bool := (os.proc pid).any OsProcess.permitted

/-- The effect of a successful `kill`. -/
def deliver (pid : Pid) (signal : Signal) : Os :=
  os.modify fun p => if p.pid = pid then { p with lastSignal := some signal } else p

/-! ## The environment -/

/-- What can happen between two steps of the limiter. After `recover` everything
under /proc can be read again. -/
inductive EnvEvent
  | fork (parent child : Pid) (startTime : Timespec) (permitted : Bool)
  | exit (pid : Pid)
  | reap (pid : Pid)
  | setReadable (pid : Pid) (readable : Bool)
  | setStartReadable (pid : Pid) (readable : Bool)
  | setProcOpens (opens : Bool)
  | recover
  | quit

def newborn (parent child : Pid) (startTime : Timespec) (permitted : Bool) : OsProcess :=
  ⟨child, parent, false, startTime, true, true, permitted, none⟩

/-- A process leaves a zombie behind, and its children to process 1. -/
def exitOf (pid : Pid) (p : OsProcess) : OsProcess :=
  { p with
    zombie := if p.pid = pid then true else p.zombie
    ppid := if p.ppid = pid then 1 else p.ppid }

def setReadableOf (pid : Pid) (readable : Bool) (p : OsProcess) : OsProcess :=
  { p with readable := if p.pid = pid then readable else p.readable }

def setStartReadableOf (pid : Pid) (readable : Bool) (p : OsProcess) : OsProcess :=
  { p with startReadable := if p.pid = pid then readable else p.startReadable }

def recoverOf (p : OsProcess) : OsProcess := { p with readable := true, startReadable := true }

/-- One event; `none` when it cannot happen. -/
def envStep : EnvEvent → Option Os
  | .fork parent child startTime permitted =>
    if os.alive parent = true ∧ os.proc child = none ∧ 1 < child then
      some { os with procs := os.procs ++ [newborn parent child startTime permitted] }
    else none
  | .exit pid => if os.alive pid = true ∧ 1 < pid then some (os.modify (exitOf pid)) else none
  | .reap pid =>
    if (os.proc pid).any OsProcess.zombie = true then
      some { os with procs := os.procs.filter fun p => p.pid ≠ pid }
    else none
  | .setReadable pid readable => some (os.modify (setReadableOf pid readable))
  | .setStartReadable pid readable => some (os.modify (setStartReadableOf pid readable))
  | .setProcOpens opens => some { os with procOpens := opens }
  | .recover => some { os.modify recoverOf with procOpens := true }
  | .quit => some { os with quitFlag := true }

/-! ## Lookups -/

variable {os}

theorem mem_of_proc {pid : Pid} {p : OsProcess} (h : os.proc pid = some p) :
    p ∈ os.procs ∧ p.pid = pid :=
  ⟨List.mem_of_find?_eq_some h, by simpa using List.find?_some h⟩

theorem proc_modify {f : OsProcess → OsProcess} (hf : ∀ p, (f p).pid = p.pid) (pid : Pid) :
    (os.modify f).proc pid = (os.proc pid).map f := by
  rw [modify, proc, proc, List.find?_map]
  congr 2
  funext p
  rw [Function.comp_apply, hf]

theorem alive_iff {pid : Pid} :
    os.alive pid = true ↔ ∃ p, os.proc pid = some p ∧ p.zombie = false := by
  simp [alive, Option.any_eq_true]

theorem proc_append (q : OsProcess) (pid : Pid) :
    ({ os with procs := os.procs ++ [q] } : Os).proc pid =
      (os.proc pid).or (if q.pid = pid then some q else none) := by
  by_cases h : q.pid = pid
  · simp [proc, List.find?_append, h]
  · simp [proc, List.find?_append, h]

theorem proc_filter (gone pid : Pid) :
    ({ os with procs := os.procs.filter fun p => p.pid ≠ gone } : Os).proc pid =
      if pid = gone then none else os.proc pid := by
  simp only [proc, List.find?_filter]
  split_ifs with h
  · subst h
    rw [List.find?_eq_none]
    intro p _
    simp
  · congr 1
    funext p
    by_cases hp : p.pid = pid
    · simp [hp, h]
    · simp [hp]

theorem proc_deliver (pid : Pid) (signal : Signal) (q : Pid) :
    (os.deliver pid signal).proc q =
      (os.proc q).map fun p => if q = pid then { p with lastSignal := some signal } else p := by
  rw [deliver, proc_modify (by intro p; split_ifs <;> rfl)]
  cases h : os.proc q with
  | none => rfl
  | some p => simp [(mem_of_proc h).2]

/-! ## What the environment does -/

/-- When an event can happen. -/
def EnvEvent.Possible (os : Os) : EnvEvent → Prop
  | .fork parent child _ _ => os.alive parent = true ∧ os.proc child = none ∧ 1 < child
  | .exit pid => os.alive pid = true ∧ 1 < pid
  | .reap pid => (os.proc pid).any OsProcess.zombie = true
  | _ => True

/-- What an event makes of the process with a `pid`, if there is one. -/
def EnvEvent.after (pid : Pid) (old : Option OsProcess) : EnvEvent → Option OsProcess
  | .fork parent child startTime permitted =>
    old.or (if child = pid then some (newborn parent child startTime permitted) else none)
  | .exit gone => old.map (exitOf gone)
  | .reap gone => if pid = gone then none else old
  | .setReadable target readable => old.map (setReadableOf target readable)
  | .setStartReadable target readable => old.map (setStartReadableOf target readable)
  | .recover => old.map recoverOf
  | .setProcOpens _ | .quit => old

theorem envStep_spec {event : EnvEvent} {os' : Os} (h : os.envStep event = some os') :
    event.Possible os ∧ (os.quitFlag = true → os'.quitFlag = true) ∧
      ∀ pid, os'.proc pid = event.after pid (os.proc pid) := by
  cases event with
  | fork parent child startTime permitted =>
    simp only [envStep] at h
    split_ifs at h with hp
    cases h
    exact ⟨hp, id, proc_append _⟩
  | exit gone =>
    simp only [envStep] at h
    split_ifs at h with hp
    cases h
    exact ⟨hp, id, proc_modify fun _ => rfl⟩
  | reap gone =>
    simp only [envStep] at h
    split_ifs at h with hp
    cases h
    exact ⟨hp, id, proc_filter gone⟩
  | setReadable target readable => cases h; exact ⟨trivial, id, proc_modify fun _ => rfl⟩
  | setStartReadable target readable => cases h; exact ⟨trivial, id, proc_modify fun _ => rfl⟩
  | setProcOpens opens => cases h; exact ⟨trivial, id, fun _ => rfl⟩
  | recover => cases h; exact ⟨trivial, id, proc_modify fun _ => rfl⟩
  | quit => cases h; exact ⟨trivial, fun _ => rfl, fun _ => rfl⟩

/-- Only a fork makes a process. -/
theorem EnvEvent.after_none {event : EnvEvent} {pid : Pid} {p' : OsProcess}
    (h : event.after pid none = some p') : ∃ parent startTime permitted,
      event = .fork parent pid startTime permitted ∧
        p' = newborn parent pid startTime permitted := by
  cases event with
  | fork parent child startTime permitted =>
    simp only [EnvEvent.after, Option.none_or] at h
    split_ifs at h with hpid
    cases h
    subst hpid
    exact ⟨parent, startTime, permitted, rfl, rfl⟩
  | reap gone => simp [EnvEvent.after] at h
  | exit gone => cases h
  | setReadable target readable => cases h
  | setStartReadable target readable => cases h
  | setProcOpens opens => cases h
  | recover => cases h
  | quit => cases h

/-- What an event can do to a process that it leaves: signals and permissions
stay, and only exits make zombies and orphans. -/
structure EnvEvent.Keeps (event : EnvEvent) (p p' : OsProcess) : Prop where
  lastSignal : p'.lastSignal = p.lastSignal
  permitted : p'.permitted = p.permitted
  zombie : p.zombie = true → p'.zombie = true
  alive : event ≠ .exit p.pid → p'.zombie = p.zombie
  ppid : p'.ppid = 1 ∨ p'.ppid = p.ppid ∧ event ≠ .exit p.ppid

theorem EnvEvent.Keeps.refl {event : EnvEvent} {p : OsProcess} (h : event ≠ .exit p.ppid) :
    event.Keeps p p :=
  ⟨rfl, rfl, id, fun _ => rfl, Or.inr ⟨rfl, h⟩⟩

theorem EnvEvent.keeps_exit (gone : Pid) (p : OsProcess) :
    (EnvEvent.exit gone).Keeps p (exitOf gone p) := by
  refine ⟨rfl, rfl, fun hz => by simp [exitOf, hz], fun hne => ?_, ?_⟩
  · have hpid : p.pid ≠ gone := fun he => hne (by rw [he])
    simp [exitOf, hpid]
  · by_cases hg : p.ppid = gone
    · exact Or.inl (by simp [exitOf, hg])
    · refine Or.inr ⟨by simp [exitOf, hg], fun he => hg ?_⟩
      exact (EnvEvent.exit.inj he).symm

/-- Only reaping takes a process away. -/
theorem EnvEvent.after_some (event : EnvEvent) (pid : Pid) (p : OsProcess) :
    event = .reap pid ∨ ∃ p', event.after pid (some p) = some p' ∧ event.Keeps p p' := by
  cases event with
  | reap gone =>
    by_cases hg : pid = gone
    · exact Or.inl (by rw [hg])
    · exact Or.inr ⟨p, by simp [EnvEvent.after, hg], .refl (by simp)⟩
  | exit gone => exact Or.inr ⟨_, rfl, keeps_exit gone p⟩
  | fork parent child startTime permitted => exact Or.inr ⟨p, rfl, .refl (by simp)⟩
  | setReadable target readable =>
    exact Or.inr ⟨_, rfl, rfl, rfl, id, fun _ => rfl, by simp [setReadableOf]⟩
  | setStartReadable target readable =>
    exact Or.inr ⟨_, rfl, rfl, rfl, id, fun _ => rfl, by simp [setStartReadableOf]⟩
  | setProcOpens opens => exact Or.inr ⟨p, rfl, .refl (by simp)⟩
  | recover => exact Or.inr ⟨_, rfl, rfl, rfl, id, fun _ => rfl, by simp [recoverOf]⟩
  | quit => exact Or.inr ⟨p, rfl, .refl (by simp)⟩

/-- A process that is there and not reaped is there after the event. -/
theorem envStep_forth {event : EnvEvent} {os' : Os} (h : os.envStep event = some os') {pid : Pid}
    {p : OsProcess} (hp : os.proc pid = some p) (hreap : event ≠ .reap pid) :
    ∃ p', os'.proc pid = some p' ∧ event.Keeps p p' := by
  obtain ⟨p', hp', hkeeps⟩ := (EnvEvent.after_some event pid p).resolve_left hreap
  exact ⟨p', by rw [(envStep_spec h).2.2, hp, hp'], hkeeps⟩

/-- A process after an event was there before, or has just been forked. -/
theorem envStep_back {event : EnvEvent} {os' : Os} (h : os.envStep event = some os') {pid : Pid}
    {p' : OsProcess} (hp' : os'.proc pid = some p') :
    (∃ p, os.proc pid = some p ∧ event.Keeps p p') ∨
      os.proc pid = none ∧ ∃ parent startTime permitted,
        event = .fork parent pid startTime permitted ∧
          p' = newborn parent pid startTime permitted := by
  rw [(envStep_spec h).2.2] at hp'
  cases hold : os.proc pid with
  | none =>
    rw [hold] at hp'
    exact Or.inr ⟨rfl, EnvEvent.after_none hp'⟩
  | some p =>
    rw [hold] at hp'
    refine Or.inl ⟨p, rfl, ?_⟩
    rcases EnvEvent.after_some event pid p with rfl | ⟨p'', hp'', hkeeps⟩
    · simp [EnvEvent.after] at hp'
    · cases hp'.symm.trans hp''
      exact hkeeps

end Os

/-! ## The stat files of the processes -/

/-- Stat files that show the processes, under names that the readers can parse. -/
structure StatFiles (os : Os) where
  stat : Pid → Option (List Char)
  missing : ∀ pid, (∀ p, os.proc pid = some p → p.readable = false) → stat pid = none
  shown : ∀ pid p, os.proc pid = some p → p.readable = true → ∃ r : StatRecord,
    stat pid = some r.line ∧ r.pid = pid ∧ r.ppid = p.ppid ∧ r.comm ≠ [] ∧ ')' ∉ r.comm ∧
      (p.zombie = true ↔ r.state = 'Z' ∨ r.state = 'X' ∨ r.state = 'x')

namespace StatFiles

variable {os : Os} (files : StatFiles os)

theorem stat_eq_none_of_proc {pid : Pid} (h : os.proc pid = none) : files.stat pid = none :=
  files.missing pid fun p hp => by simp [h] at hp

theorem stat_eq_none_of_readable {pid : Pid} {p : OsProcess} (hp : os.proc pid = some p)
    (h : p.readable = false) : files.stat pid = none := by
  refine files.missing pid fun q hq => ?_
  cases hp.symm.trans hq
  exact h

/-- The parent of a process is what `getppid_of` reads from its stat file. -/
theorem getppidOf_eq (pid : Pid) : getppidOf pid (files.stat pid) = os.getppidOf pid := by
  by_cases hpid : pid ≤ 0
  · simp [getppidOf, Os.getppidOf, hpid]
  cases hp : os.proc pid with
  | none => simp [getppidOf, Os.getppidOf, hpid, hp, files.stat_eq_none_of_proc hp]
  | some p =>
    cases hr : p.readable with
    | false => simp [getppidOf, Os.getppidOf, hpid, hp, hr, files.stat_eq_none_of_readable hp hr]
    | true =>
      obtain ⟨r, hstat, rfl, hppid, hne, hparen, -⟩ := files.shown pid p hp hr
      rw [hstat, (r.parsed_of_comm hne hparen).1, hppid]
      simp [Os.getppidOf, hpid, hp, hr]

/-- With a command line, `read_process_info` fails for the same processes, and
finds the same parent. -/
theorem readProcessInfo_eq (pid : Pid) (clkTck : ℕ) {cmdline buffer : List Char}
    (hcmdline : fgets pathMax cmdline = some buffer) (cputime : ℚ) (command : List Char) :
    (readProcessInfo clkTck pid (some cmdline) (files.stat pid)).map ProcessInfo.ppid =
      (os.readProcessInfo pid cputime command).map Process.ppid := by
  cases hp : os.proc pid with
  | none => simp [readProcessInfo, Os.readProcessInfo, hp, files.stat_eq_none_of_proc hp]
  | some p =>
    cases hr : p.readable with
    | false =>
      simp [readProcessInfo, Os.readProcessInfo, hp, hr, files.stat_eq_none_of_readable hp hr]
    | true =>
      obtain ⟨r, hstat, rfl, hppid, hne, hparen, hzombie⟩ := files.shown pid p hp hr
      obtain ⟨hfails, hinfo⟩ := (r.parsed_of_comm hne hparen).2 clkTck cmdline buffer hcmdline
      rw [← hzombie] at hfails
      rw [hstat]
      cases hread : readProcessInfo clkTck r.pid (some cmdline) (some r.line) with
      | none => simp [Os.readProcessInfo, hp, hr, hfails.mp hread]
      | some info =>
        have hz : p.zombie = false := by
          by_contra hz
          rw [hfails.mpr (Bool.not_eq_false _ ▸ hz)] at hread
          cases hread
        simp [Os.readProcessInfo, hp, hr, hz, (hinfo info hread).2.1, hppid]

end StatFiles

end CpuLimit
