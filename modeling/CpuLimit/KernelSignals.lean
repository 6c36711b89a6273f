import CpuLimit.KernelView
import CpuLimit.LimitMemory

/-!
# From the files of the kernel to the signals

A whole call of `limit_process` on linked lists whose scans read the texts of /proc. What it
sends is described over the processes of the kernel alone: the members of each cycle are the
processes below the target at its scan.
-/
namespace CpuLimit

open Library ProcessGroup
open Library.LinkedList (Heap)

variable {A : Type}

/-- What a cycle meets when its scan reads the files. -/
structure FileCycle (A : Type) where
  alloc : Allocator A
  image : KernelImage
  load : Option ℚ
  contFails : Pid → Bool
  stopFails : Pid → Bool

namespace FileCycle

variable (c : FileCycle A) (filter : ProcessFilter)

def input (yielded : List Process) : CycleInput :=
  ⟨c.image.now, yielded, c.load, c.contFails, c.stopFails⟩

def read (fuel : ℕ) (filter : ProcessFilter) (c : FileCycle A) :
    Option (Allocator A × CycleInput) :=
  (c.image.scan fuel filter).map fun yielded => (c.alloc, c.input yielded)

/-- The processes that the cycle is to find. -/
noncomputable def pids : List Pid := (c.image.kernel.wanted filter).map KernelProcess.pid

/-- Those that SIGCONT reaches. -/
noncomputable def resumed : List Pid := (c.pids filter).filter fun pid => !c.contFails pid

/-- Those that SIGSTOP reaches after it. -/
noncomputable def stopped : List Pid := (c.resumed filter).filter fun pid => !c.stopFails pid

theorem read_returns : Fuel.Returns (fun fuel => read fuel filter) c
    (c.alloc, c.input (c.image.records filter)) := by
  obtain ⟨enough, hscan⟩ := c.image.scan_returns filter
  refine ⟨enough, fun fuel hfuel => ?_⟩
  have hrecords : c.image.scan fuel filter = some (c.image.records filter) := hscan fuel hfuel
  dsimp only [read]
  rw [hrecords, Option.map_some]

end FileCycle

/-- `limit_process`, from the files; `none` is out of fuel. -/
def limitProcessFromFiles [DecidableEq A] (fuel : ℕ) (ncpu : ℤ) (limit : ℚ) (target : Pid)
    (includeChildren : Bool) (start : Timespec) (built : KernelImage) (alloc : Allocator A)
    (timeSlot : ℚ) (cycles : List (FileCycle A)) (heap : Heap A (Option RecordId)) :
    Option (Outcome Unit (LoopEnd (HeapGroup A))) :=
  (built.scan fuel ⟨target, includeChildren⟩).bind fun initial =>
    (cycles.mapM (FileCycle.read fuel ⟨target, includeChildren⟩)).map fun inputs =>
      limitProcess ncpu limit target includeChildren start built.now alloc initial timeSlot inputs
        heap

/-- What the loop sends from given members on. At its end these are resumed, unless the
target has gone. In every other cycle the processes that it finds are resumed and, if the
duty cycle over the records of the kernel leaves time to sleep, those among them that were
reached are stopped. The state is that of the loop over these records. -/
inductive KernelRounds (ncpu : ℤ) (limit : ℚ) (filter : ProcessFilter) :
    LimitState → List Pid → List (FileCycle A) → List (Signal × Pid) → Prop
  | quit {s : LimitState} {members : List Pid} :
      KernelRounds ncpu limit filter s members [] (members.map (Signal.cont, ·))
  | gone {s : LimitState} {members : List Pid} {c : FileCycle A} {cycles : List (FileCycle A)}
      (hnone : c.pids filter = []) : KernelRounds ncpu limit filter s members (c :: cycles) []
  | works {s t : LimitState} {members : List Pid} {c : FileCycle A} {cycles : List (FileCycle A)}
      {later : List (Signal × Pid)} (hsome : c.pids filter ≠ [])
      (hcycle : s.limitCycle ncpu limit (c.input (c.image.records filter)) = some t)
      (hworks : ¬ s.Sleeps ncpu limit (c.input (c.image.records filter)))
      (hlater : KernelRounds ncpu limit filter t (c.resumed filter) cycles later) :
      KernelRounds ncpu limit filter s members (c :: cycles)
        ((c.pids filter).map (Signal.cont, ·) ++ later)
  | sleeps {s t : LimitState} {members : List Pid} {c : FileCycle A} {cycles : List (FileCycle A)}
      {later : List (Signal × Pid)} (hsome : c.pids filter ≠ [])
      (hcycle : s.limitCycle ncpu limit (c.input (c.image.records filter)) = some t)
      (hsleeps : s.Sleeps ncpu limit (c.input (c.image.records filter)))
      (hlater : KernelRounds ncpu limit filter t (c.stopped filter) cycles later) :
      KernelRounds ncpu limit filter s members (c :: cycles)
        ((c.pids filter).map (Signal.cont, ·) ++ (c.resumed filter).map (Signal.stop, ·) ++ later)

namespace LimitState

variable {ncpu : ℤ} {limit : ℚ} {s t : LimitState} {i : CycleInput}

theorem memberPids_eq_nil_iff (ncpu : ℤ) (limit : ℚ) :
    (s.updated i).memberPids = [] ↔ s.limitCycle ncpu limit i = none := by
  rw [memberPids, List.map_eq_nil_iff, ← List.length_eq_zero_iff, limitCycle]
  dsimp only
  split_ifs with hlength
  · exact iff_of_true hlength rfl
  · exact iff_of_false hlength not_false

/-- The signals and the members of a cycle that goes on, without a time to sleep. -/
theorem sent_of_works (hcycle : s.limitCycle ncpu limit i = some t)
    (hworks : ¬ Sleeps ncpu limit s i) :
    s.sent ncpu limit i = (s.updated i).memberPids.map (Signal.cont, ·) ∧
      t.group.memberPids = (s.updated i).memberPids.filter fun pid => !i.contFails pid := by
  have hgroup := limitCycle_group hcycle
  dsimp only at hgroup
  rw [if_neg hworks] at hgroup
  rw [sent, if_neg hworks, List.append_nil, hgroup, memberPids_wholePass]
  exact ⟨rfl, rfl⟩

theorem sent_of_sleeps (hcycle : s.limitCycle ncpu limit i = some t)
    (hsleeps : Sleeps ncpu limit s i) :
    s.sent ncpu limit i = (s.updated i).memberPids.map (Signal.cont, ·) ++
        ((s.updated i).memberPids.filter fun pid => !i.contFails pid).map (Signal.stop, ·) ∧
      t.group.memberPids = ((s.updated i).memberPids.filter fun pid => !i.contFails pid).filter
        fun pid => !i.stopFails pid := by
  have hgroup := limitCycle_group hcycle
  dsimp only at hgroup
  rw [if_pos hsleeps] at hgroup
  simp only [sent, if_pos hsleeps, hgroup, memberPids_wholePass, and_self]

/-- The loop over the records of the kernel. The induction is over the cycles and carries
the table. -/
theorem rounds_cycles (ncpu : ℤ) (limit : ℚ) (filter : ProcessFilter)
    (cycles : List (FileCycle A)) {s : LimitState} (hs : TableSound s.group) :
    KernelRounds ncpu limit filter s s.group.memberPids cycles
      (s.cycles ncpu limit (cycles.map fun c => c.input (c.image.records filter))).sent := by
  induction cycles generalizing s with
  | nil => exact .quit
  | cons c cycles ih =>
    obtain ⟨hcoherent, hmembers, -⟩ :=
      update_spec hs c.image.now (c.image.validScan_records filter)
    rw [c.image.pid_records] at hmembers
    have hupdated : (s.updated (c.input (c.image.records filter))).memberPids = c.pids filter :=
      hmembers
    rw [List.map_cons, LimitState.cycles]
    cases hcycle : s.limitCycle ncpu limit (c.input (c.image.records filter)) with
    | none =>
      rw [← memberPids_eq_nil_iff, hupdated] at hcycle
      exact .gone hcycle
    | some t =>
      have hsome : c.pids filter ≠ [] := by
        rw [← hupdated, ne_eq, memberPids_eq_nil_iff ncpu limit, hcycle]
        exact Option.some_ne_none t
      have hsound : TableSound t.group :=
        limitCycle_invariant (fun _ node h => h.dropMember node) hcycle hcoherent.table
      have hlater := ih hsound
      by_cases hsleeps : Sleeps ncpu limit s (c.input (c.image.records filter))
      · obtain ⟨hsent, hleft⟩ := sent_of_sleeps hcycle hsleeps
        rw [hupdated] at hsent hleft
        rw [hleft] at hlater
        dsimp only
        rw [hsent]
        exact .sleeps hsome hcycle hsleeps hlater
      · obtain ⟨hsent, hleft⟩ := sent_of_works hcycle hsleeps
        rw [hupdated] at hsent hleft
        rw [hleft] at hlater
        dsimp only
        rw [hsent]
        exact .works hsome hcycle hsleeps hlater

end LimitState

/-- With enough fuel all scans of a call return. -/
theorem FileCycle.mapM_read (filter : ProcessFilter) (cycles : List (FileCycle A)) :
    Fuel.Returns (fun fuel cycles => List.mapM (FileCycle.read fuel filter) cycles) cycles
      (cycles.map fun c => (c.alloc, c.input (c.image.records filter))) := by
  obtain ⟨enough, hread⟩ := Fuel.Returns.forall_mem fun c (_ : c ∈ cycles) => c.read_returns filter
  refine ⟨enough, fun fuel hfuel => ?_⟩
  have hall := hread fuel hfuel
  dsimp only at hall ⊢
  clear hread
  induction cycles with
  | nil => rfl
  | cons c cycles ih =>
    rw [List.forall_mem_cons] at hall
    rw [List.mapM_cons, hall.1, ih hall.2]
    rfl

theorem LimitState.memberPids_enter (target : Pid) (includeChildren : Bool)
    (start built : Timespec) {initial : List Process} (hinitial : ValidScan initial)
    (timeSlot : ℚ) :
    TableSound (enter target includeChildren start built initial timeSlot).group ∧
      (enter target includeChildren start built initial timeSlot).group.memberPids =
        initial.map Process.pid := by
  obtain ⟨hcoherent, hmembers, -⟩ :=
    update_spec (tableSound_fresh target includeChildren start) built hinitial
  exact ⟨hcoherent.table, hmembers⟩

/-- From the texts of /proc and with linked lists, a call of `limit_process` commits no
fault, sends the rounds of the kernel, and gives its memory back. -/
theorem signalsFollowKernel [DecidableEq A] (ncpu : ℤ) (limit : ℚ) (target : Pid)
    (includeChildren : Bool) (start : Timespec) (built : KernelImage) (alloc : Allocator A)
    (timeSlot : ℚ) (cycles : List (FileCycle A)) (heap : Heap A (Option RecordId)) :
    ∃ enough, ∀ fuel, enough ≤ fuel → ∃ call, limitProcessFromFiles fuel ncpu limit target
        includeChildren start built alloc timeSlot cycles heap = some call ∧
      call.Delivers fun r => KernelRounds ncpu limit ⟨target, includeChildren⟩
          (LimitState.enter target includeChildren start built.now
            (built.records ⟨target, includeChildren⟩) timeSlot)
          ((built.kernel.wanted ⟨target, includeChildren⟩).map KernelProcess.pid) cycles r.sent ∧
        r.group.store.heap = heap ∧ ∀ i, r.group.store.lists i = none := by
  obtain ⟨n, hbuilt⟩ := built.scan_returns ⟨target, includeChildren⟩
  obtain ⟨m, hcycles⟩ := FileCycle.mapM_read ⟨target, includeChildren⟩ cycles
  refine ⟨max n m, fun fuel hfuel => ⟨limitProcess ncpu limit target includeChildren start
    built.now alloc (built.records ⟨target, includeChildren⟩) timeSlot
    (cycles.map fun c => (c.alloc, c.input (c.image.records ⟨target, includeChildren⟩))) heap,
    ?_, ?_⟩⟩
  · have hinitial := hbuilt fuel ((le_max_left _ _).trans hfuel)
    have hinputs := hcycles fuel ((le_max_right _ _).trans hfuel)
    dsimp only at hinitial hinputs
    rw [limitProcessFromFiles, hinitial, Option.bind_some, hinputs, Option.map_some]
  · have hvalid := built.validScan_records ⟨target, includeChildren⟩
    refine (limitProcess_realizes ncpu limit target includeChildren start built.now alloc hvalid
      timeSlot ?_ heap).mono fun r hr => ⟨?_, hr.heap_eq, hr.lists⟩
    · rintro i hi
      obtain ⟨c, -, rfl⟩ := List.mem_map.mp hi
      exact c.image.validScan_records _
    · obtain ⟨htable, hmembers⟩ := LimitState.memberPids_enter target includeChildren start
        built.now hvalid timeSlot
      have hrounds :=
        LimitState.rounds_cycles ncpu limit ⟨target, includeChildren⟩ cycles htable
      rw [hmembers, built.pid_records] at hrounds
      rw [hr.sent, List.map_map]
      exact hrounds

/-- SIGCONT does not reach process 9. -/
def plainCycle (ms : ℤ) : FileCycle ℕ :=
  ⟨firstFree, plainImage ms 0, none, fun pid => pid = 9, fun _ => false⟩

example : ((limitProcessFromFiles 5 1 (1 / 2) 7 true ⟨0, 0⟩ (plainImage 10 0) firstFree timeSlotBase
    [plainCycle 30, plainCycle 60] fun _ => none).bind fun call => call.result.map LoopEnd.sent) =
      some [(.cont, 9), (.cont, 7), (.stop, 7), (.cont, 9), (.cont, 7), (.stop, 7),
        (.cont, 7)] := by
  decide +kernel

end CpuLimit
