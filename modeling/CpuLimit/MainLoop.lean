import CpuLimit.Arguments
import CpuLimit.LimitMemory

/-!
# The last loop of main

With a `pid` or a name `main` searches for its target and limits it, again and again
until it is lazy, `quit_flag` is set, or the target is cpulimit itself. From one call of
`limit_process` to the next only the static time slot and the heap live on.
-/
namespace CpuLimit

open Library
open Library.LinkedList (Heap)
open Library.Getopt (Arg)
open Arguments (Settings Host)

variable {A : Type}

/-- What the environment decides in one turn: whether `quit_flag` is set at its head, the
answers to the search, what a call of `limit_process` meets, and whether `quit_flag` is
set by its end. -/
structure SearchTurn (A : Type) where
  quitAtHead : Bool
  isChildOf : Pid → Pid → Bool
  killSucceeds : Pid → Bool
  yielded : List Process
  start : Timespec
  built : Timespec
  alloc : Allocator A
  initial : List Process
  inputs : List (Allocator A × CycleInput)
  quitAtEnd : Bool

/-- The scans of the turn are those of a process list. -/
def SearchTurn.Valid (i : SearchTurn A) : Prop :=
  ProcessGroup.ValidScan i.initial ∧ ∀ c ∈ i.inputs, ProcessGroup.ValidScan c.2.yielded

/-- `return 0` and `exit(EXIT_FAILURE)`. -/
inductive ExitCode
  | success
  | failure
  deriving DecidableEq

/-- What lives on between the turns, and what has happened so far. -/
structure MainState (A : Type) where
  heap : Heap A (Option RecordId)
  timeSlot : ℚ
  quitFlag : Bool
  searches : ℕ
  limited : List Pid

namespace MainState

def start (heap : Heap A (Option RecordId)) : MainState A := ⟨heap, timeSlotBase, false, 0, []⟩

variable [DecidableEq A] (s : Settings) (ncpu : ℤ) (limit : ℚ) (cpulimitPid : Pid)

/-- One turn; an exit code ends the program. -/
def turn (m : MainState A) (i : SearchTurn A) : Outcome Unit (MainState A × Option ExitCode) :=
  if i.quitAtHead then return ({ m with quitFlag := true }, some .success)
  else
    let m := { m with searches := m.searches + 1 }
    match s.search i.isChildOf i.killSucceeds i.yielded cpulimitPid with
    | .itself => return (m, some .failure)
    | .notFound =>
      let m := { m with quitFlag := i.quitAtEnd }
      return (m, if s.lazy || m.quitFlag then some .success else none)
    | .limits target => do
      let r ← limitProcess ncpu limit target s.includeChildren i.start i.built i.alloc i.initial
        m.timeSlot i.inputs m.heap
      let m : MainState A :=
        { m with
          heap := r.group.store.heap
          timeSlot := r.timeSlot
          quitFlag := r.quit || i.quitAtEnd
          limited := m.limited ++ [target] }
      return (m, if s.lazy || m.quitFlag then some .success else none)

/-- The turns up to the exit. -/
def loop : MainState A → List (SearchTurn A) → Outcome Unit (MainState A × Option ExitCode)
  | m, [] => return (m, none)
  | m, i :: turns => do
    let r ← turn s ncpu limit cpulimitPid m i
    match r.2 with
    | some code => return (r.1, some code)
    | none => loop r.1 turns

end MainState

/-! ## The time slot of a call -/

namespace LimitState

theorem slotInRange_cycle {ncpu : ℤ} {limit : ℚ} {s t : LimitState} {i : CycleInput}
    (h : s.limitCycle ncpu limit i = some t) (hs : SlotInRange s.duty.timeSlot) :
    SlotInRange t.duty.timeSlot := by
  rw [limitCycle_duty h]
  exact hs.next ncpu i.load

theorem slotInRange_cycles (ncpu : ℤ) (limit : ℚ) {s : LimitState} {inputs : List CycleInput}
    (hs : SlotInRange s.duty.timeSlot) : SlotInRange (s.cycles ncpu limit inputs).timeSlot := by
  induction inputs generalizing s with
  | nil => exact hs
  | cons i inputs ih =>
    rw [cycles]
    cases hcycle : s.limitCycle ncpu limit i with
    | none => exact hs
    | some t => exact ih (slotInRange_cycle hcycle hs)

end LimitState

/-! ## The search -/

/-- A search by name that succeeds has just signalled what it found. -/
theorem findProcessByName_pos {isChildOf : Pid → Pid → Bool} {killSucceeds : Pid → Bool}
    {yielded : List Process} {processName : List Char}
    (h : 0 < findProcessByName isChildOf killSucceeds yielded processName) :
    killSucceeds (findProcessByName isChildOf killSucceeds yielded processName) = true := by
  unfold findProcessByName findProcessByPid at h ⊢
  dsimp only at h ⊢
  split_ifs at h ⊢ with hpos hkill
  · exact hkill
  · exact absurd h (not_lt.mpr (neg_nonpos.mpr hpos.le))
  · exact absurd h (lt_irrefl 0)

namespace Arguments

/-- What a search says about the target that it finds. -/
theorem Settings.search_limits {s : Settings} {isChildOf : Pid → Pid → Bool}
    {killSucceeds : Pid → Bool} {yielded : List Process} {cpulimitPid target : Pid}
    (hpid : s.pidOk = true → 0 < s.pid)
    (h : s.search isChildOf killSucceeds yielded cpulimitPid = .limits target) :
    0 < target ∧ target ≠ cpulimitPid ∧ killSucceeds target = true ∧
      (s.pidOk = true → target = s.pid) := by
  cases hok : s.pidOk with
  | true =>
    rw [Settings.targets_pid hok (hpid hok)] at h
    split_ifs at h with hkill hself
    cases h
    exact ⟨hpid hok, hself, hkill, fun _ => rfl⟩
  | false =>
    unfold Settings.search at h
    simp only [hok, Bool.false_eq_true, if_false] at h
    split_ifs at h with hpos hself
    cases h
    exact ⟨hpos, hself, findProcessByName_pos hpos, fun he => by cases he⟩

/-- A `pid` makes `main` lazy. -/
theorem Settings.lazy_of_pid {host : Host} {argv : List Arg} {s : Settings}
    (h : arguments host argv = some (.ok s)) (hok : s.pidOk = true) :
    0 < s.pid ∧ s.lazy = true := by
  obtain ⟨parsed, -, hbind⟩ := Option.map_eq_some_iff.mp h
  cases parsed with
  | error rejection => cases hbind
  | ok result =>
    obtain ⟨v, operands⟩ := result
    have hvalidate : validate host v operands = .ok s := hbind
    have hrange := (validate_ok hvalidate).pid_range hok
    have hpos : 0 < s.pid := lt_trans zero_lt_one hrange.1
    refine ⟨hpos, ?_⟩
    simp only [validate] at hvalidate
    split_ifs at hvalidate
    cases hvalidate
    simp [hpos.ne']

end Arguments

/-! ## The loop -/

namespace MainState

variable [DecidableEq A] {s : Settings} {cpulimitPid : Pid} {heap : Heap A (Option RecordId)}
  {m : MainState A}

/-- What every turn keeps: nothing is left in the heap, the time slot is one that
`get_dynamic_time_slot` returns, and no call was for cpulimit itself or for a process
that was not asked for. -/
structure Kept (s : Settings) (cpulimitPid : Pid) (heap : Heap A (Option RecordId))
    (m : MainState A) : Prop where
  heap_eq : m.heap = heap
  slot : SlotInRange m.timeSlot
  limited : ∀ pid ∈ m.limited, 0 < pid ∧ pid ≠ cpulimitPid ∧ (s.pidOk = true → pid = s.pid)
  calls : m.limited.length ≤ m.searches

/-- Why a turn ends the program, or does not. -/
structure Justified (s : Settings) (cpulimitPid : Pid) (turns : List (SearchTurn A))
    (m : MainState A) (code : Option ExitCode) : Prop where
  success : code = some .success → s.lazy = true ∨ m.quitFlag = true
  failure : code = some .failure → ∃ i ∈ turns,
    s.search i.isChildOf i.killSucceeds i.yielded cpulimitPid = .itself

/-- The next turn comes only to a program that is not lazy, while `quit_flag` is not set. -/
theorem turn_kept (ncpu : ℤ) (limit : ℚ) (hpid : s.pidOk = true → 0 < s.pid)
    (h : Kept s cpulimitPid heap m) {i : SearchTurn A} (hv : i.Valid) :
    (turn s ncpu limit cpulimitPid m i).Delivers fun r =>
      Kept s cpulimitPid heap r.1 ∧ Justified s cpulimitPid [i] r.1 r.2 ∧
        r.1.searches ≤ m.searches + 1 ∧
          (r.2 = none → s.lazy = false ∧ r.1.quitFlag = false) := by
  have hcalls : m.limited.length ≤ m.searches + 1 := h.calls.trans (Nat.le_succ _)
  -- the check at the end of a turn
  have hcheck : ∀ m' : MainState A, Justified s cpulimitPid [i] m'
        (if s.lazy || m'.quitFlag then some .success else none) ∧
      ((if s.lazy || m'.quitFlag then some ExitCode.success else none) = none →
        s.lazy = false ∧ m'.quitFlag = false) := by
    intro m'
    cases hlazy : s.lazy <;> cases hquit : m'.quitFlag <;>
      exact ⟨⟨by simp [hlazy, hquit], by simp⟩, by simp⟩
  unfold turn
  by_cases hhead : i.quitAtHead = true
  · rw [if_pos hhead]
    exact .returned ⟨⟨h.heap_eq, h.slot, h.limited, h.calls⟩, ⟨fun _ => Or.inr rfl, by simp⟩,
      Nat.le_succ _, by simp⟩
  · rw [if_neg hhead]
    dsimp only
    cases hsearch : s.search i.isChildOf i.killSucceeds i.yielded cpulimitPid with
    | itself =>
      exact .returned ⟨⟨h.heap_eq, h.slot, h.limited, hcalls⟩,
        ⟨by simp, fun _ => ⟨i, by simp, hsearch⟩⟩, le_rfl, by simp⟩
    | notFound =>
      obtain ⟨hjust, hnext⟩ := hcheck { m with
        searches := m.searches + 1
        quitFlag := i.quitAtEnd }
      exact .returned ⟨⟨h.heap_eq, h.slot, h.limited, hcalls⟩, hjust, le_rfl, hnext⟩
    | limits target =>
      obtain ⟨hpos, hself, -, hasked⟩ := Arguments.Settings.search_limits hpid hsearch
      refine (limitProcess_realizes ncpu limit target s.includeChildren i.start i.built i.alloc
        hv.1 m.timeSlot hv.2 m.heap).bind fun r hr => ?_
      obtain ⟨hjust, hnext⟩ := hcheck { m with
        heap := r.group.store.heap
        timeSlot := r.timeSlot
        quitFlag := r.quit || i.quitAtEnd
        searches := m.searches + 1
        limited := m.limited ++ [target] }
      have hslot : SlotInRange r.timeSlot := by
        rw [hr.timeSlot]
        exact LimitState.slotInRange_cycles ncpu limit h.slot
      refine .returned ⟨⟨hr.heap_eq.trans h.heap_eq, hslot, fun pid hmem => ?_, ?_⟩, hjust, le_rfl,
        hnext⟩
      · rcases List.mem_append.mp hmem with hold | hnew
        · exact h.limited pid hold
        · rw [List.mem_singleton.mp hnew]
          exact ⟨hpos, hself, hasked⟩
      · rw [List.length_append]
        exact Nat.succ_le_succ h.calls

/-- The turns one after the other. The induction is over the turns to come. -/
theorem loop_kept (ncpu : ℤ) (limit : ℚ) (hpid : s.pidOk = true → 0 < s.pid)
    (h : Kept s cpulimitPid heap m) {turns : List (SearchTurn A)} (hv : ∀ i ∈ turns, i.Valid) :
    (loop s ncpu limit cpulimitPid m turns).Delivers fun r =>
      Kept s cpulimitPid heap r.1 ∧ Justified s cpulimitPid turns r.1 r.2 ∧
        (s.lazy = true → r.1.searches ≤ m.searches + 1) ∧
          (r.2 = none → turns = [] ∨ s.lazy = false) := by
  induction turns generalizing m with
  | nil =>
    exact .returned ⟨h, ⟨by simp, by simp⟩, fun _ => Nat.le_succ _, fun _ => Or.inl rfl⟩
  | cons i turns ih =>
    rw [loop]
    refine (turn_kept ncpu limit hpid h (hv i (by simp))).bind fun r hr => ?_
    obtain ⟨hkept, hjust, hsearches, hnext⟩ := hr
    cases hcode : r.2 with
    | some code =>
      rw [hcode] at hjust
      refine .returned ⟨hkept, ⟨hjust.success, fun hf => ?_⟩, fun _ => hsearches, by simp⟩
      obtain ⟨j, hj, hsearch⟩ := hjust.failure hf
      exact ⟨j, by rw [List.mem_singleton.mp hj]; simp, hsearch⟩
    | none =>
      obtain ⟨hlazy, -⟩ := hnext hcode
      refine (ih hkept fun j hj => hv j (by simp [hj])).mono fun r' hr' => ?_
      obtain ⟨hkept', hjust', -, -⟩ := hr'
      refine ⟨hkept', ⟨hjust'.success, fun hf => ?_⟩, fun ht => ?_, fun _ => Or.inr hlazy⟩
      · obtain ⟨j, hj, hsearch⟩ := hjust'.failure hf
        exact ⟨j, by simp [hj], hsearch⟩
      · rw [hlazy] at ht
        cases ht

end MainState

/-- From accepted arguments `main` limits processes, one call of `limit_process` after the
other, without a fault. Each of the calls is for a process other than cpulimit, and for
the `pid` that was given, if one was. A lazy program, as one with a `pid` is, searches
once; any other ends for `quit_flag` or for being its own target. Between the calls the
heap of nodes is the one at the start. -/
theorem mainLoop_delivers [DecidableEq A] {host : Host} {argv : List Arg} {s : Settings}
    (hs : Arguments.arguments host argv = some (.ok s)) (limit : ℚ) (cpulimitPid : Pid)
    (heap : Heap A (Option RecordId)) {turns : List (SearchTurn A)} (hv : ∀ i ∈ turns, i.Valid) :
    (MainState.loop s host.ncpu limit cpulimitPid (.start heap) turns).Delivers fun r =>
      MainState.Kept s cpulimitPid heap r.1 ∧ MainState.Justified s cpulimitPid turns r.1 r.2 ∧
        (s.pidOk = true → s.lazy = true) ∧ (s.lazy = true → r.1.searches ≤ 1) ∧
          (r.2 = none → turns = [] ∨ s.lazy = false) := by
  have hpid := fun hok => Arguments.Settings.lazy_of_pid hs hok
  have hstart : MainState.Kept s cpulimitPid heap (.start heap) :=
    ⟨rfl, slotInRange_base, by simp [MainState.start], Nat.zero_le _⟩
  refine (MainState.loop_kept host.ncpu limit (fun hok => (hpid hok).1) hstart hv).mono
    fun r hr => ?_
  obtain ⟨hkept, hjust, hsearches, hnext⟩ := hr
  exact ⟨hkept, hjust, fun hok => (hpid hok).2, hsearches, hnext⟩

/-- The arguments of a search by name. -/
def byName : List Arg := ["cpulimit", "-l", "50", "-e", "sh"].map String.toList

def byNameSettings : Settings :=
  ⟨.finite (1 / 2), some "sh".toList, true, false, 0, [], false, false, false⟩

def shell : Process := ⟨5, 1, 0, 0, "sh".toList⟩

/-- A turn that finds these processes, and limits its target as long as there are inputs. -/
def shellTurn (found : List Process) (inputs : List (Allocator ℕ × CycleInput)) (quit : Bool) :
    SearchTurn ℕ :=
  ⟨false, fun _ _ => false, fun _ => true, found, ⟨0, 0⟩, ⟨0, 0⟩, firstFree, found, inputs, quit⟩

/-- The shell is limited for a cycle and ends; it is searched again in vain, until the
program is told to quit. -/
def shellTurns : List (SearchTurn ℕ) :=
  [shellTurn [shell] [(firstFree, ⟨⟨0, 30000000⟩, [shell], some 2, fun _ => false, fun _ => false⟩),
      (firstFree, ⟨⟨0, 60000000⟩, [], none, fun _ => false, fun _ => false⟩)] false,
    shellTurn [] [] true, shellTurn [shell] [] false]

theorem mainLoop_delivers_shell :
    let run := MainState.loop byNameSettings 4 (1 / 2) 9 (.start fun _ => none) shellTurns
    run.Delivers (fun r => MainState.Kept byNameSettings 9 (fun _ => none) r.1) ∧
      run.result.map (fun r => (r.2, r.1.limited, r.1.searches)) =
        some (some .success, [5], 2) := by
  have hs : Arguments.arguments Arguments.usualHost byName = some (.ok byNameSettings) := by
    decide +kernel
  have hv : ∀ i ∈ shellTurns, i.Valid := by
    simp only [SearchTurn.Valid]
    decide
  exact ⟨(mainLoop_delivers hs (1 / 2) 9 (fun _ => none) hv).mono fun r hr => hr.1,
    by decide +kernel⟩

end CpuLimit
