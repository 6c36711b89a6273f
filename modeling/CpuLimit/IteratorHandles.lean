import CpuLimit.Library.Outcome
import CpuLimit.LinuxIterator

/-!
# The handles behind the process iterator

The three functions of the iterator on Linux and FreeBSD, with the fields of
`struct process_iterator` that may not be set and with the directory stream or
kvm descriptor that they open, use and close. What the system calls answer is
arbitrary and may change with every call. A process is reduced to its `pid`,
since no handle depends on more. The callers run `init_process_iterator`,
`get_next_process` up to the result -1, and `close_process_iterator`.
-/
namespace CpuLimit

open Library

/-- A directory stream or kvm descriptor; an iterator opens at most one. -/
inductive Handle
  | unopened
  | opened
  | closed
  deriving DecidableEq

/-- The value of `dip` or `kd`. -/
inductive HandlePtr
  | null
  | handle
  deriving DecidableEq

inductive HandleFault
  | unsetField
  | notOpen
  | outOfBounds
  deriving DecidableEq

/-- The value of a field; `none` is one that was not set. -/
def readField {α : Type} : Option α → Outcome HandleFault α
  | none => .faulted .unsetField
  | some a => .returned a

/-- What every call with a handle needs. -/
def useHandle (ptr : HandlePtr) (handle : Handle) : Outcome HandleFault Unit :=
  if ptr = .handle ∧ handle = .opened then .returned () else .faulted .notOpen

/-- `closedir` or `kvm_close`, whatever it returns. -/
def closeHandle (ptr : HandlePtr) (handle : Handle) : Outcome HandleFault Handle := do
  useHandle ptr handle
  pure .closed

theorem readField_of_eq {α : Type} {field : Option α} {a : α} (h : field = some a) :
    readField field = .returned a := by
  rw [h]
  rfl

theorem useHandle_of_opened {handle : Handle} (h : handle = .opened) :
    useHandle .handle handle = .returned () := by
  rw [h]
  rfl

theorem closeHandle_of_opened {handle : Handle} (h : handle = .opened) :
    closeHandle .handle handle = .returned .closed := by
  rw [h]
  rfl

/-! ## Linux -/

namespace Procfs

/-- What the calls answer; those of `get_next_process` are asked at different times. -/
structure Answers where
  mounted : Bool
  opendir : Bool
  readdir : ℕ → Option Dirent
  isChildOf : ℕ → Pid → Pid → Bool
  readProcessInfo : ℕ → Pid → Bool
  closedir : Bool

/-- `struct process_iterator`, with the state of the stream. -/
structure Iterator where
  dip : Option HandlePtr
  filter : Option ProcessFilter
  stream : Handle
  time : ℕ

variable (env : Answers)

def initProcessIterator (filter : ProcessFilter) : Outcome HandleFault (ℤ × Iterator) :=
  if env.mounted = false then .exited
  else if env.opendir = false then .returned (-1, ⟨some .null, none, .unopened, 0⟩)
  else .returned (0, ⟨some .handle, some filter, .opened, 0⟩)

/-- `closedir` and the reset of `dip`. -/
def closeStream (it : Iterator) : Outcome HandleFault Iterator := do
  let dip ← readField it.dip
  let stream ← closeHandle dip it.stream
  pure { it with dip := some .null, stream := stream }

/-- A turn of the loop of `get_next_process`. -/
def readdirTurn (filter : ProcessFilter) (it : Iterator) :
    Outcome HandleFault (Iterator ⊕ (Option Pid × Iterator)) := do
  let dip ← readField it.dip
  useHandle dip it.stream
  let now := it.time
  let it := { it with time := now + 1 }
  match env.readdir now with
  | none =>
    let it ← closeStream it
    pure (.inr (none, it))
  | some dit =>
    let pid := toPid (atol dit.dName)
    if dit.isDir = false then pure (.inl it)
    else if isNumeric dit.dName = false ∨ pid ≤ 0 then pure (.inl it)
    else if filter.pid ≠ 0 ∧ filter.pid ≠ pid ∧ env.isChildOf now pid filter.pid = false then
      pure (.inl it)
    else if env.readProcessInfo now pid = false then pure (.inl it)
    else pure (.inr (some pid, it))

/-- `get_next_process`; `none` is the result -1. -/
def getNextProcess (fuel : ℕ) (it : Iterator) : Outcome HandleFault (Option Pid × Iterator) := do
  let dip ← readField it.dip
  if dip = .null then pure (none, it)
  else
    let filter ← readField it.filter
    if filter.pid ≠ 0 ∧ filter.includeChildren = false then
      let ret := env.readProcessInfo it.time filter.pid
      let it ← closeStream it
      pure (if ret then some filter.pid else none, it)
    else Outcome.iterate (readdirTurn env filter) fuel it

def closeProcessIterator (it : Iterator) : Outcome HandleFault (ℤ × Iterator) := do
  let dip ← readField it.dip
  if dip = .null then pure (0, it)
  else
    let it ← closeStream it
    pure (if env.closedir then 0 else -1, it)

end Procfs

/-! ## FreeBSD -/

namespace Kvm

/-- `struct kinfo_proc`. -/
structure KinfoProc where
  kiPid : Pid
  kiPpid : Pid
  pSystem : Bool

/-- What the calls answer. `failedCount` is what `kvm_getprocs` stores in `count` when
it fails. -/
structure Answers where
  errbuf : Bool
  openfiles : Bool
  getprocs : Option (List KinfoProc)
  failedCount : Option ℤ
  procs : Bool
  process : ℕ → Pid → Option KinfoProc
  getargv : ℕ → KinfoProc → Bool
  close : Bool

/-- `struct process_iterator`, with the state of the descriptor. -/
structure Iterator where
  kd : Option HandlePtr
  procs : Option (Option (List KinfoProc))
  count : Option ℤ
  i : Option ℕ
  filter : Option ProcessFilter
  descriptor : Handle
  time : ℕ

variable (env : Answers)

def initProcessIterator (filter : ProcessFilter) : Outcome HandleFault (ℤ × Iterator) :=
  if env.errbuf = false then .exited
  else if env.openfiles = false then
    .returned (-1, ⟨some .null, some none, none, some 0, none, .unopened, 0⟩)
  else
    match env.getprocs with
    | none => do
      let descriptor ← closeHandle .handle .opened
      pure (-1, ⟨some .handle, some none, env.failedCount, some 0, none, descriptor, 0⟩)
    | some procs =>
      if env.procs = false then .exited
      else .returned (0, ⟨some .handle, some (some procs), some procs.length, some 0, some filter,
        .opened, 0⟩)

/-- `kproc2proc`, on the arguments of a process. -/
def kproc2proc (kd : HandlePtr) (it : Iterator) (kproc : KinfoProc) :
    Outcome HandleFault (Option Pid) := do
  useHandle kd it.descriptor
  pure (if env.getargv it.time kproc then some kproc.kiPid else none)

def getSingleProcess (kd : HandlePtr) (it : Iterator) (pid : Pid) :
    Outcome HandleFault (Option Pid) := do
  useHandle kd it.descriptor
  match env.process it.time pid with
  | none => pure none
  | some kproc => kproc2proc env kd it kproc

/-- `_getppid_of`. -/
def getppidOf (kd : HandlePtr) (it : Iterator) (pid : Pid) : Outcome HandleFault Pid := do
  useHandle kd it.descriptor
  match env.process it.time pid with
  | none => pure (-1)
  | some kproc => pure kproc.kiPpid

/-- `_is_child_of`. -/
def isChildOf (fuel : ℕ) (kd : HandlePtr) (it : Iterator) (childPid parentPid : Pid) :
    Outcome HandleFault (Bool × Iterator) :=
  if childPid ≤ 0 ∨ parentPid ≤ 0 ∨ childPid = parentPid then pure (false, it)
  else
    Outcome.iterate (fun s => do
      if 1 < s.1 ∧ s.1 ≠ parentPid then
        let ppid ← getppidOf env kd s.2 s.1
        pure (.inl (ppid, { s.2 with time := s.2.time + 1 }))
      else pure (.inr (decide (s.1 = parentPid), s.2))) fuel (childPid, it)

/-- `it->procs + it->i`, dereferenced. -/
def procAt (procs : Option (List KinfoProc)) (i : ℕ) : Outcome HandleFault KinfoProc :=
  match procs.bind fun procs => procs[i]? with
  | none => .faulted .outOfBounds
  | some kproc => .returned kproc

/-- A turn of the loop of `get_next_process`. -/
def procTurn (fuel : ℕ) (filter : ProcessFilter) (it : Iterator) :
    Outcome HandleFault (Iterator ⊕ (Option Pid × Iterator)) := do
  let i ← readField it.i
  let count ← readField it.count
  if count ≤ i then pure (.inr (none, it))
  else
    let procs ← readField it.procs
    let kproc ← procAt procs i
    let kd ← readField it.kd
    let next := { it with i := some (i + 1), time := it.time + 1 }
    if kproc.pSystem then pure (.inl next)
    else if filter.pid ≠ 0 ∧ filter.includeChildren then
      match ← kproc2proc env kd next kproc with
      | none => pure (.inl next)
      | some pid =>
        if pid = filter.pid then pure (.inr (some pid, next))
        else
          let (child, next) ← isChildOf env fuel kd next pid filter.pid
          pure (if child then .inr (some pid, next) else .inl next)
    else if filter.pid = 0 then
      match ← kproc2proc env kd next kproc with
      | none => pure (.inl next)
      | some pid => pure (.inr (some pid, next))
    else pure (.inl it)

/-- `get_next_process`; `none` is the result -1. -/
def getNextProcess (fuel : ℕ) (it : Iterator) : Outcome HandleFault (Option Pid × Iterator) := do
  let i ← readField it.i
  let count ← readField it.count
  if count ≤ i then pure (none, it)
  else
    let filter ← readField it.filter
    if filter.pid ≠ 0 ∧ filter.includeChildren = false then
      let kd ← readField it.kd
      match ← getSingleProcess env kd it filter.pid with
      | none => pure (none, { it with i := some 0, count := some 0 })
      | some pid => pure (some pid, { it with i := some 1, count := some 1 })
    else Outcome.iterate (procTurn env fuel filter) fuel it

def closeProcessIterator (it : Iterator) : Outcome HandleFault (ℤ × Iterator) := do
  let _ ← readField it.procs
  let kd ← readField it.kd
  let descriptor ← closeHandle kd it.descriptor
  pure (if env.close then 0 else -1, { it with procs := some none, descriptor := descriptor })

end Kvm

/-! ## The callers -/

/-- The three functions of an iterator, for one filter and one way in which the system
answers. -/
structure Backend (σ : Type) where
  init : Outcome HandleFault (ℤ × σ)
  next : ℕ → σ → Outcome HandleFault (Option Pid × σ)
  close : σ → Outcome HandleFault (ℤ × σ)
  handle : σ → Handle

namespace Backend

variable {σ : Type} (b : Backend σ)

/-- The loop of the callers: what `get_next_process` yields before the result -1. -/
def drain (fuel : ℕ) (it : σ) : Outcome HandleFault (List Pid × σ) :=
  Outcome.iterate (fun s => do
    let (pid, it) ← b.next fuel s.2
    match pid with
    | none => pure (.inr (s.1, it))
    | some pid => pure (.inl (s.1 ++ [pid], it))) fuel ([], it)

/-- The calls of `find_process_by_name` and `update_process_group`, which do not look at
the result of `init_process_iterator`. -/
def session (fuel : ℕ) : Outcome HandleFault (List Pid × σ) := do
  let (_, it) ← b.init
  let (pids, it) ← b.drain fuel it
  let (_, it) ← b.close it
  pure (pids, it)

/-- However far a session gets, it reads no unset field and uses and closes its handle
only while that is open; a session that ends has closed what it opened; and after a
failed initialisation the first call ends the iteration. -/
structure Safe : Prop where
  faultless : ∀ fuel, (b.session fuel).Meets fun s => b.handle s.2 ≠ .opened
  ends : ∀ it, b.init = .returned (-1, it) →
    ∀ fuel, ∃ it', b.next fuel it = .returned (none, it')

variable {b}

theorem drain_meets {inv : σ → Prop} {fuel : ℕ}
    (hnext : ∀ it, inv it → (b.next fuel it).Meets fun s => inv s.2) {it : σ} (hit : inv it) :
    (b.drain fuel it).Meets fun s => inv s.2 := by
  have hturn : ∀ s : List Pid × σ, inv s.2 → ((b.next fuel s.2 >>= fun r =>
      match r.1 with
      | none => pure (.inr (s.1, r.2))
      | some pid => pure (.inl (s.1 ++ [pid], r.2))) :
        Outcome HandleFault ((List Pid × σ) ⊕ (List Pid × σ))).Meets
          (Sum.elim (fun s => inv s.2) fun s => inv s.2) := by
    intro s hs
    refine (hnext s.2 hs).bind fun r hr => ?_
    cases r.1 <;> exact hr
  exact Outcome.meets_iterate hturn fuel hit

/-- A session is without a fault if an invariant of the iterator says what the next call
needs. -/
theorem session_meets {inv : σ → Prop} (hinit : b.init.Meets fun s => inv s.2)
    (hnext : ∀ fuel it, inv it → (b.next fuel it).Meets fun s => inv s.2)
    (hclose : ∀ it, inv it → (b.close it).Meets fun s => b.handle s.2 ≠ .opened) (fuel : ℕ) :
    (b.session fuel).Meets fun s => b.handle s.2 ≠ .opened :=
  hinit.bind fun _ hit => (drain_meets (hnext fuel) hit).bind fun _ hit' =>
    (hclose _ hit').bind fun _ hend => hend

theorem not_safe_of_fault {fuel : ℕ} {fault : HandleFault} (h : b.session fuel = .faulted fault) :
    ¬ b.Safe := by
  intro hsafe
  have hmeets := hsafe.faultless fuel
  rw [h] at hmeets
  exact hmeets

end Backend

namespace Procfs

variable (env : Answers) (filter : ProcessFilter)

def backend : Backend Iterator where
  init := initProcessIterator env filter
  next := getNextProcess env
  close := closeProcessIterator env
  handle := Iterator.stream

/-- `dip` tells whether the stream is open, and an open stream comes with a filter. -/
def Tracked (it : Iterator) : Prop :=
  it.dip = some .null ∧ it.stream ≠ .opened ∨
    it.dip = some .handle ∧ it.stream = .opened ∧ it.filter ≠ none

variable {env} {filter} {it : Iterator}

theorem tracked_init : (initProcessIterator env filter).Meets fun s => Tracked s.2 := by
  unfold initProcessIterator
  split_ifs
  · exact trivial
  · exact Or.inl ⟨rfl, by decide⟩
  · exact Or.inr ⟨rfl, rfl, by simp⟩

theorem closeStream_eq (hdip : it.dip = some .handle) (hopen : it.stream = .opened) :
    closeStream it = .returned { it with dip := some .null, stream := .closed } := by
  rw [closeStream, readField_of_eq hdip]
  dsimp only [Outcome.returned_bind]
  rw [closeHandle_of_opened hopen]
  rfl

/-- A turn at the end of the stream closes it, any other takes one entry from it. -/
theorem readdirTurn_cases (filter : ProcessFilter) (hdip : it.dip = some .handle)
    (hopen : it.stream = .opened) :
    readdirTurn env filter it =
        .returned (.inr (none, ⟨some .null, it.filter, .closed, it.time + 1⟩)) ∨
      env.readdir it.time ≠ none ∧
        (readdirTurn env filter it = .returned (.inl { it with time := it.time + 1 }) ∨
          ∃ pid, readdirTurn env filter it =
            .returned (.inr (some pid, { it with time := it.time + 1 }))) := by
  have hclose : closeStream { it with time := it.time + 1 } = .returned _ :=
    closeStream_eq hdip hopen
  rw [readdirTurn, readField_of_eq hdip]
  dsimp only [Outcome.returned_bind]
  rw [useHandle_of_opened hopen]
  dsimp only [Outcome.returned_bind]
  cases env.readdir it.time with
  | none =>
    dsimp only
    rw [hclose]
    exact Or.inl rfl
  | some dit =>
    refine Or.inr ⟨Option.some_ne_none dit, ?_⟩
    dsimp only
    split_ifs
    · exact Or.inl rfl
    · exact Or.inl rfl
    · exact Or.inl rfl
    · exact Or.inl rfl
    · exact Or.inr ⟨_, rfl⟩

theorem tracked_readdirTurn (hdip : it.dip = some .handle) (hopen : it.stream = .opened)
    (hfilter : it.filter ≠ none) :
    (readdirTurn env filter it).Meets (Sum.elim
      (fun it => it.dip = some .handle ∧ it.stream = .opened ∧ it.filter ≠ none)
      fun s => Tracked s.2) := by
  rcases readdirTurn_cases filter hdip hopen with hlast | ⟨-, hskip | ⟨pid, hfound⟩⟩
  · rw [hlast]
    exact Or.inl ⟨rfl, by simp⟩
  · rw [hskip]
    exact ⟨hdip, hopen, hfilter⟩
  · rw [hfound]
    exact Or.inr ⟨hdip, hopen, hfilter⟩

theorem tracked_getNextProcess (fuel : ℕ) (h : Tracked it) :
    (getNextProcess env fuel it).Meets fun s => Tracked s.2 := by
  obtain ⟨hdip, hclosed⟩ | ⟨hdip, hopen, hfilter⟩ := h
  · rw [getNextProcess, readField_of_eq hdip]
    exact Or.inl ⟨hdip, hclosed⟩
  · obtain ⟨filter, hf⟩ := Option.ne_none_iff_exists'.mp hfilter
    have hne : HandlePtr.handle ≠ .null := by decide
    rw [getNextProcess, readField_of_eq hdip, readField_of_eq hf]
    dsimp only [Outcome.returned_bind]
    rw [if_neg hne, closeStream_eq hdip hopen]
    split
    · exact Or.inl ⟨rfl, by simp⟩
    · exact Outcome.meets_iterate (fun it hit => tracked_readdirTurn hit.1 hit.2.1 hit.2.2) fuel
        ⟨hdip, hopen, hfilter⟩

theorem closed_closeProcessIterator (h : Tracked it) :
    (closeProcessIterator env it).Meets fun s => s.2.stream ≠ .opened := by
  obtain ⟨hdip, hclosed⟩ | ⟨hdip, hopen, -⟩ := h
  · rw [closeProcessIterator, readField_of_eq hdip]
    exact hclosed
  · have hne : HandlePtr.handle ≠ .null := by decide
    rw [closeProcessIterator, readField_of_eq hdip]
    dsimp only [Outcome.returned_bind]
    rw [if_neg hne, closeStream_eq hdip hopen]
    exact fun he => by cases he

/-- The Linux iterator is safe whatever the calls answer. -/
theorem safe_backend (env : Answers) (filter : ProcessFilter) : (backend env filter).Safe where
  faultless := Backend.session_meets tracked_init (fun fuel _ => tracked_getNextProcess fuel)
    fun _ => closed_closeProcessIterator
  ends it hit fuel := by
    have hdip : it.dip = some .null := by
      revert hit
      show initProcessIterator env filter = _ → _
      unfold initProcessIterator
      split_ifs
      · exact fun h => by cases h
      · exact fun h => by cases h; rfl
      · exact fun h => by cases h
    refine ⟨it, ?_⟩
    show getNextProcess env fuel it = _
    rw [getNextProcess, readField_of_eq hdip]
    rfl

/-- A stream with a process, another directory and a process that cannot be read. -/
def threeEntries : Answers where
  mounted := true
  opendir := true
  readdir n := [⟨[ '7'], true⟩, ⟨[ 'f', 's'], true⟩, ⟨[ '9'], true⟩][n]?
  isChildOf _ _ _ := false
  readProcessInfo _ pid := pid ≠ 9
  closedir := true

example : (backend threeEntries ⟨0, false⟩).session 5 =
    .returned ([7], ⟨some .null, some ⟨0, false⟩, .closed, 4⟩) := by
  rfl

end Procfs

namespace Kvm

variable (env : Answers) (filter : ProcessFilter)

def backend : Backend Iterator where
  init := initProcessIterator env filter
  next := getNextProcess env
  close := closeProcessIterator env
  handle := Iterator.descriptor

/-- Everything is set, the descriptor is open, and the counter stays within the array. -/
structure Ready (it : Iterator) : Prop where
  kd_eq : it.kd = some .handle
  opened : it.descriptor = .opened
  filter_set : it.filter ≠ none
  i_set : it.i ≠ none
  counted : ∃ procs count, it.procs = some (some procs) ∧ it.count = some count ∧
    count ≤ (procs.length : ℤ)

variable {env} {filter} {it : Iterator}

theorem Ready.advance (h : Ready it) (i time : ℕ) :
    Ready { it with i := some i, time := time } :=
  ⟨h.kd_eq, h.opened, h.filter_set, by simp, h.counted⟩

theorem Ready.later (h : Ready it) (time : ℕ) : Ready { it with time := time } :=
  ⟨h.kd_eq, h.opened, h.filter_set, h.i_set, h.counted⟩

/-- The calls that only use the descriptor. -/
theorem kproc2proc_meets (h : Ready it) (kproc : KinfoProc) :
    (kproc2proc env .handle it kproc).Meets fun _ => True := by
  rw [kproc2proc, useHandle_of_opened h.opened]
  trivial

theorem getSingleProcess_meets (h : Ready it) (pid : Pid) :
    (getSingleProcess env .handle it pid).Meets fun _ => True := by
  rw [getSingleProcess, useHandle_of_opened h.opened]
  dsimp only [Outcome.returned_bind]
  cases env.process it.time pid with
  | none => trivial
  | some kproc => exact kproc2proc_meets h kproc

theorem getppidOf_meets (h : Ready it) (pid : Pid) :
    (getppidOf env .handle it pid).Meets fun _ => True := by
  rw [getppidOf, useHandle_of_opened h.opened]
  dsimp only [Outcome.returned_bind]
  cases env.process it.time pid <;> trivial

/-- A walk leaves the counter alone. -/
theorem isChildOf_meets (fuel : ℕ) (h : Ready it) (childPid parentPid : Pid) :
    (isChildOf env fuel .handle it childPid parentPid).Meets fun s =>
      Ready s.2 ∧ s.2.i = it.i ∧ s.2.count = it.count := by
  rw [isChildOf]
  split
  · exact ⟨h, rfl, rfl⟩
  · have hstart : Ready it ∧ it.i = it.i ∧ it.count = it.count := ⟨h, rfl, rfl⟩
    refine Outcome.meets_iterate
      (fun s (hs : Ready s.2 ∧ s.2.i = it.i ∧ s.2.count = it.count) => ?_) fuel hstart
    split
    · exact (getppidOf_meets hs.1 s.1).bind fun _ _ => ⟨hs.1.later _, hs.2⟩
    · exact hs

theorem procAt_eq {procs : List KinfoProc} {count : ℤ} {i : ℕ} (hle : count ≤ (procs.length : ℤ))
    (hi : ¬ count ≤ i) : ∃ kproc, procAt (some procs) i = .returned kproc := by
  have hlt : i < procs.length := by omega
  exact ⟨procs[i], by rw [procAt, Option.bind_some, List.getElem?_eq_getElem hlt]⟩

/-- The processes of the array that the iteration has not reached. -/
def left (it : Iterator) : ℕ := (it.count.getD 0 - it.i.getD 0).toNat

theorem left_lt {i j : ℕ} {count : ℤ} {next : Iterator} (hi : it.i = some i)
    (hcount : it.count = some count) (hlt : ¬ count ≤ i) (hnexti : next.i = some j)
    (hnext : next.count = it.count) (hij : i < j) : left next < left it := by
  simp only [left, hi, hcount, hnexti, hnext, Option.getD_some]
  omega

/-- A turn goes on to the next process, or yields one, or finds none left. -/
theorem ready_procTurn (fuel : ℕ) (h : Ready it)
    (hmany : ¬ (filter.pid ≠ 0 ∧ filter.includeChildren = false)) :
    (procTurn env fuel filter it).Meets (Sum.elim (fun t => Ready t ∧ left t < left it)
      fun s => Ready s.2 ∧ (s.1 ≠ none → left s.2 < left it)) := by
  obtain ⟨procs, count, hprocs, hcount, hle⟩ := h.counted
  obtain ⟨i, hi⟩ := Option.ne_none_iff_exists'.mp h.i_set
  rw [procTurn, readField_of_eq hi, readField_of_eq hcount]
  dsimp only [Outcome.returned_bind]
  split
  case isTrue => exact ⟨h, by simp⟩
  case isFalse hlt =>
    obtain ⟨kproc, hkproc⟩ := procAt_eq hle hlt
    rw [readField_of_eq hprocs, readField_of_eq h.kd_eq]
    dsimp only [Outcome.returned_bind]
    rw [hkproc]
    dsimp only [Outcome.returned_bind]
    have hnext := h.advance (i + 1) (it.time + 1)
    have hless : ∀ next : Iterator, next.i = some (i + 1) → next.count = it.count →
        left next < left it := fun next hn hc => left_lt hi hcount hlt hn hc (Nat.lt_succ_self i)
    split
    · exact ⟨hnext, hless _ rfl rfl⟩
    · split
      · refine (kproc2proc_meets hnext kproc).bind fun pid _ => ?_
        cases pid with
        | none => exact ⟨hnext, hless _ rfl rfl⟩
        | some pid =>
          dsimp only
          split
          · exact ⟨hnext, fun _ => hless _ rfl rfl⟩
          · refine (isChildOf_meets fuel hnext pid filter.pid).bind fun s hs => ?_
            split
            · exact ⟨hs.1, fun _ => hless _ hs.2.1 hs.2.2⟩
            · exact ⟨hs.1, hless _ hs.2.1 hs.2.2⟩
      · split
        · refine (kproc2proc_meets hnext kproc).bind fun pid _ => ?_
          cases pid with
          | none => exact ⟨hnext, hless _ rfl rfl⟩
          | some pid => exact ⟨hnext, fun _ => hless _ rfl rfl⟩
        case isFalse hno hzero =>
          exact absurd ⟨hzero, Bool.not_eq_true _ ▸ fun hyes => hno ⟨hzero, hyes⟩⟩ hmany

theorem ready_getNextProcess (fuel : ℕ) (h : Ready it) :
    (getNextProcess env fuel it).Meets fun s =>
      Ready s.2 ∧ (s.1 ≠ none → left s.2 < left it) := by
  obtain ⟨procs, count, hprocs, hcount, hle⟩ := h.counted
  obtain ⟨i, hi⟩ := Option.ne_none_iff_exists'.mp h.i_set
  obtain ⟨filter, hf⟩ := Option.ne_none_iff_exists'.mp h.filter_set
  rw [getNextProcess, readField_of_eq hi, readField_of_eq hcount, readField_of_eq hf,
    readField_of_eq h.kd_eq]
  dsimp only [Outcome.returned_bind]
  split
  case isTrue => exact ⟨h, by simp⟩
  case isFalse hlt =>
    split
    · refine (getSingleProcess_meets h filter.pid).bind fun pid _ => ?_
      cases pid with
      | none =>
        exact ⟨⟨h.kd_eq, h.opened, h.filter_set, by simp, procs, 0, hprocs, rfl,
          Int.natCast_nonneg _⟩, by simp⟩
      | some pid =>
        refine ⟨⟨h.kd_eq, h.opened, h.filter_set, by simp, procs, 1, hprocs, rfl, by omega⟩,
          fun _ => ?_⟩
        simp only [left, hi, hcount, Option.getD_some]
        omega
    case isFalse hmany =>
      refine Outcome.meets_iterate (fun t (ht : Ready t ∧ left t ≤ left it) => ?_) fuel
        ⟨h, Nat.le_refl _⟩
      refine (ready_procTurn fuel ht.1 hmany).mono fun s hs => ?_
      cases s with
      | inl u => exact ⟨hs.1, hs.2.le.trans ht.2⟩
      | inr r => exact ⟨hs.1, fun hr => (hs.2 hr).trans_le ht.2⟩

theorem closed_closeProcessIterator (h : Ready it) :
    (closeProcessIterator env it).Meets fun s => s.2.descriptor ≠ .opened := by
  obtain ⟨procs, count, hprocs, -⟩ := h.counted
  rw [closeProcessIterator, readField_of_eq hprocs, readField_of_eq h.kd_eq]
  dsimp only [Outcome.returned_bind]
  rw [closeHandle_of_opened h.opened]
  exact fun he => by cases he

/-- Where the calls of `init_process_iterator` succeed, the FreeBSD iterator is safe. -/
theorem safe_backend (filter : ProcessFilter)
    (h : env.errbuf = true → env.openfiles = true ∧ env.getprocs.isSome = true) :
    (backend env filter).Safe := by
  have hinit : (initProcessIterator env filter).Meets fun s => s.1 = 0 ∧ Ready s.2 := by
    unfold initProcessIterator
    cases herrbuf : env.errbuf with
    | false => exact trivial
    | true =>
      obtain ⟨hopen, hprocs⟩ := h herrbuf
      obtain ⟨procs, hp⟩ := Option.isSome_iff_exists.mp hprocs
      rw [hopen, hp]
      cases env.procs with
      | false => exact trivial
      | true => exact ⟨rfl, rfl, rfl, by simp, by simp, procs, procs.length, rfl, rfl, le_rfl⟩
  have hready : (initProcessIterator env filter).Meets fun s => Ready s.2 :=
    hinit.mono fun _ hs => hs.2
  refine ⟨Backend.session_meets hready
    (fun fuel _ hit => (ready_getNextProcess fuel hit).mono fun _ hs => hs.1)
    fun _ => closed_closeProcessIterator, fun it hit => ?_⟩
  have hret : (Outcome.returned (-1, it) : Outcome HandleFault (ℤ × Iterator)).Meets
    fun s => s.1 = 0 ∧ Ready s.2 := hit ▸ hinit
  have hzero : (-1 : ℤ) = 0 := hret.1
  exact absurd hzero (by decide)

/-- Without a descriptor the first `get_next_process` reads `count`, which nothing set. -/
theorem not_safe_of_openfiles (filter : ProcessFilter) (herrbuf : env.errbuf = true)
    (hopen : env.openfiles = false) : ¬ (backend env filter).Safe := by
  have hfault : (backend env filter).session 1 = .faulted .unsetField := by
    simp [Backend.session, Backend.drain, backend, initProcessIterator, getNextProcess, readField,
      Outcome.iterate, herrbuf, hopen]
  exact Backend.not_safe_of_fault hfault

/-- After a failed `kvm_getprocs` the filter is not set, and the descriptor that was
closed at once is closed again at the end. -/
theorem not_safe_of_getprocs (filter : ProcessFilter) (herrbuf : env.errbuf = true)
    (hopen : env.openfiles = true) (hprocs : env.getprocs = none) :
    ¬ (backend env filter).Safe := by
  have hinit : initProcessIterator env filter =
      .returned (-1, ⟨some .handle, some none, env.failedCount, some 0, none, .closed, 0⟩) := by
    rw [initProcessIterator, herrbuf, hopen, hprocs]
    rfl
  cases hcount : env.failedCount with
  | none =>
    have hfault : (backend env filter).session 1 = .faulted .unsetField := by
      simp [Backend.session, Backend.drain, backend, hinit, getNextProcess, readField,
        Outcome.iterate, hcount]
    exact Backend.not_safe_of_fault hfault
  | some count =>
    by_cases hle : count ≤ 0
    · have hfault : (backend env filter).session 1 = .faulted .notOpen := by
        simp [Backend.session, Backend.drain, backend, hinit, getNextProcess, readField,
          Outcome.iterate, hcount, hle, closeProcessIterator, closeHandle, useHandle]
      exact Backend.not_safe_of_fault hfault
    · have hfault : (backend env filter).session 1 = .faulted .unsetField := by
        simp [Backend.session, Backend.drain, backend, hinit, getNextProcess, readField,
          Outcome.iterate, hcount, hle]
      exact Backend.not_safe_of_fault hfault

end Kvm

/-! ## Both platforms -/

/-- A platform and what its calls answer. -/
inductive Platform
  | linux (env : Procfs.Answers)
  | freebsd (env : Kvm.Answers)

namespace Platform

def Safe (filter : ProcessFilter) : Platform → Prop
  | linux env => (Procfs.backend env filter).Safe
  | freebsd env => (Kvm.backend env filter).Safe

/-- Neither `kvm_openfiles` nor `kvm_getprocs` fails in `init_process_iterator`. -/
def KvmSucceeds : Platform → Prop
  | linux _ => True
  | freebsd env => env.errbuf = true → env.openfiles = true ∧ env.getprocs.isSome = true

/-- The iterator is safe for callers that do not look at the result of its
initialisation exactly if no call to kvm fails in it. -/
theorem safe_iff_kvmSucceeds (platform : Platform) (filter : ProcessFilter) :
    platform.Safe filter ↔ platform.KvmSucceeds := by
  cases platform with
  | linux env => exact iff_of_true (Procfs.safe_backend env filter) trivial
  | freebsd env =>
    refine ⟨fun hsafe herrbuf => ?_, Kvm.safe_backend filter⟩
    cases hopen : env.openfiles with
    | false => exact absurd hsafe (Kvm.not_safe_of_openfiles filter herrbuf hopen)
    | true =>
      cases hprocs : env.getprocs with
      | none => exact absurd hsafe (Kvm.not_safe_of_getprocs filter herrbuf hopen hprocs)
      | some procs => exact ⟨rfl, rfl⟩

/-- A FreeBSD system without access to the kernel memory devices: `kvm_openfiles` fails. -/
def withoutKvm : Platform :=
  .freebsd ⟨true, false, none, none, true, fun _ _ => none, fun _ _ => false, false⟩

/-- A FreeBSD system that opens a descriptor but shows no processes. -/
def withoutProcesses : Platform :=
  .freebsd ⟨true, true, none, some 0, true, fun _ _ => none, fun _ _ => false, true⟩

theorem not_safe_withoutKvm :
    ¬ withoutKvm.Safe ⟨0, false⟩ ∧ ¬ withoutProcesses.Safe ⟨0, false⟩ :=
  ⟨Kvm.not_safe_of_openfiles _ rfl rfl, Kvm.not_safe_of_getprocs _ rfl rfl rfl⟩

end Platform

end CpuLimit
