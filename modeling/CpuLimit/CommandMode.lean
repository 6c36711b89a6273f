import CpuLimit.Library.Runs
import Mathlib.Data.Int.Notation

/-!
# Command mode

The parent of command mode between its second `fork` and its exit, with the command
and the limiter that it waits for. The two children terminate and signals arrive at
any point. A wait that a handled signal interrupts returns without a status, and the
parent does not look at what `waitpid` returns.
-/
namespace CpuLimit.CommandMode

open Library

/-! ## Termination of a child -/

abbrev ExitStatus := Fin 256

/-- The numbers of the signals that can end a process. -/
abbrev SignalNumber := { sig : ℕ // 1 ≤ sig ∧ sig ≤ 64 }

/-- How a process terminates. -/
inductive Ending
  | exited (status : ExitStatus)
  | killed (sig : SignalNumber) (core : Bool)
  deriving DecidableEq

/-- The status that `waitpid` stores. -/
def Ending.waitStatus : Ending → ℤ
  | .exited status => (status : ℕ) * 256
  | .killed sig core => (sig : ℕ) + if core then 128 else 0

/-- `WIFEXITED`: the low seven bits are 0. -/
def wifExited (status : ℤ) : Bool := status % 128 = 0

/-- `WEXITSTATUS`: bits 8 to 15. -/
def wExitStatus (status : ℤ) : ℤ := status / 256 % 256

/-- What becomes of the argument of `exit`. -/
def exitCode (n : ℤ) : ℤ := n % 256

/-- `exit(EXIT_SUCCESS)`. -/
def exitSuccess : Ending := .exited 0

/-- A child, as its parent sees it. -/
inductive Child
  | running
  | zombie (ending : Ending)
  | reaped (ending : Ending)
  deriving DecidableEq

/-- `waitpid` for one child: the stored status, if any, and the child afterwards. The
result is `none` while the call blocks. -/
def waitpid : Child → Option (Option ℤ × Child)
  | .running => none
  | .zombie ending => some (some ending.waitStatus, .reaped ending)
  | .reaped ending => some (none, .reaped ending)

/-! ## The parent -/

/-- Where the parent is. -/
inductive Pc
  | waitChild
  | blockedOnChild
  | waitLimiter
  | blockedOnLimiter
  | report
  | exited (code : ℤ)
  deriving DecidableEq

/-- The parent and what it knows of its children. The two status variables are not
initialised: they begin with any value. -/
structure Parent where
  pc : Pc
  child : Child
  limiter : Child
  statusProcess : ℤ
  statusLimiter : ℤ
  quitFlag : Bool
  deriving DecidableEq

inductive HandledSignal
  | sigint
  | sigterm
  deriving DecidableEq

/-- A step of the parent, the end of a child, or the delivery of a signal to the parent. -/
inductive Event
  | parent
  | childEnds (ending : Ending)
  | limiterEnds (ending : Ending)
  | signal (sig : HandledSignal)
  deriving DecidableEq

/-- `sa.sa_flags`. -/
def saFlags : ℕ := 0

def saRestart : ℕ := 0x10000000

/-- An interrupted call goes on after the handler. -/
def restarts : Bool := saFlags &&& saRestart ≠ 0

namespace Parent

/-- After both forks. -/
def start (statusProcess statusLimiter : ℤ) : Parent :=
  ⟨.waitChild, .running, .running, statusProcess, statusLimiter, false⟩

variable (s : Parent)

/-- `waitpid(child, &status_process, 0)`. -/
def callChild : Parent :=
  match waitpid s.child with
  | none => { s with pc := .blockedOnChild }
  | some (status, child) =>
    { s with child := child, statusProcess := status.getD s.statusProcess, pc := .waitLimiter }

/-- `waitpid(limiter, &status_limiter, 0)`. -/
def callLimiter : Parent :=
  match waitpid s.limiter with
  | none => { s with pc := .blockedOnLimiter }
  | some (status, limiter) =>
    { s with limiter := limiter, statusLimiter := status.getD s.statusLimiter, pc := .report }

/-- The code that the parent exits with. -/
def reported : ℤ :=
  if wifExited s.statusProcess then exitCode (wExitStatus s.statusProcess)
  else exitCode s.statusProcess

/-- The parent's own step; `none` while it is blocked and after its exit. -/
def parentStep : Option Parent :=
  match s.pc with
  | .waitChild => some s.callChild
  | .waitLimiter => some s.callLimiter
  | .report => some { s with pc := .exited s.reported }
  | .blockedOnChild | .blockedOnLimiter | .exited _ => none

/-- The command terminates, which ends a wait for it. -/
def childEnds (ending : Ending) : Parent :=
  let s := { s with child := .zombie ending }
  if s.pc = .blockedOnChild then s.callChild else s

/-- The limiter terminates, which ends a wait for it. -/
def limiterEnds (ending : Ending) : Parent :=
  let s := { s with limiter := .zombie ending }
  if s.pc = .blockedOnLimiter then s.callLimiter else s

/-- `sig_handler`. -/
def sigHandler : HandledSignal → Parent
  | .sigint | .sigterm => { s with quitFlag := true }

/-- Where the parent is after a signal: a blocked `waitpid` fails with `EINTR`, unless
it is restarted. -/
def interrupted : Pc → Pc
  | .blockedOnChild => if restarts then .blockedOnChild else .waitLimiter
  | .blockedOnLimiter => if restarts then .blockedOnLimiter else .report
  | pc => pc

/-- One event; `none` when it cannot happen. -/
def step : Event → Option Parent
  | .parent => s.parentStep
  | .childEnds ending => if s.child = .running then some (s.childEnds ending) else none
  | .limiterEnds ending => if s.limiter = .running then some (s.limiterEnds ending) else none
  | .signal sig => some { s.sigHandler sig with pc := interrupted s.pc }

/-- A signal arrives while the parent is blocked in `waitpid`. -/
def Interrupts : Event → Prop
  | .signal _ => s.pc = .blockedOnChild ∨ s.pc = .blockedOnLimiter
  | .parent | .childEnds _ | .limiterEnds _ => False

instance (e : Event) : Decidable (s.Interrupts e) :=
  match e with
  | .signal _ => inferInstanceAs (Decidable (_ ∨ _))
  | .parent | .childEnds _ | .limiterEnds _ => inferInstanceAs (Decidable False)

end Parent

/-- How the process ended, whether it has been reaped or not. -/
def Child.ending : Child → Option Ending
  | .running => none
  | .zombie ending | .reaped ending => some ending

/-- The parent has reaped the process. -/
def Child.Reaped (c : Child) : Prop := ∃ ending, c = .reaped ending

/-- Both children are reaped, and the status of a command that exited is passed on. -/
structure Parent.ReportsCommand (s : Parent) (code : ℤ) : Prop where
  child : s.child.Reaped
  limiter : s.limiter.Reaped
  status : ∀ status, s.child.ending = some (.exited status) → code = (status : ℕ)

/-! ## Waits that return a status -/

theorem not_reaped_running : ¬ Child.running.Reaped := by rintro ⟨ending, h⟩; cases h

theorem not_reaped_zombie (ending : Ending) : ¬ (Child.zombie ending).Reaped := by
  rintro ⟨ending', h⟩; cases h

theorem reaped_reaped (ending : Ending) : (Child.reaped ending).Reaped := ⟨ending, rfl⟩

namespace Parent

/-- The first wait has returned with the status of the command. -/
def Collected (s : Parent) : Prop :=
  ∃ ending, s.child = .reaped ending ∧ s.statusProcess = ending.waitStatus

/-- Every wait so far has returned with a status, or goes on. -/
def Waited (s : Parent) : Prop :=
  match s.pc with
  | .waitChild => ¬ s.child.Reaped ∧ ¬ s.limiter.Reaped
  | .blockedOnChild => s.child = .running ∧ ¬ s.limiter.Reaped
  | .waitLimiter => s.Collected ∧ ¬ s.limiter.Reaped
  | .blockedOnLimiter => s.Collected ∧ s.limiter = .running
  | .report => s.Collected ∧ s.limiter.Reaped
  | .exited code => s.Collected ∧ s.limiter.Reaped ∧ code = s.reported

/-- A wait is over that has not reaped its child. -/
def Missed (s : Parent) : Prop :=
  match s.pc with
  | .waitChild | .blockedOnChild => False
  | .waitLimiter | .blockedOnLimiter => ¬ s.child.Reaped
  | .report | .exited _ => ¬ s.child.Reaped ∨ ¬ s.limiter.Reaped

variable {s t : Parent}

/-- The call for the command waits, or collects its status. -/
theorem callChild_waited (hchild : ¬ s.child.Reaped) (hlimiter : ¬ s.limiter.Reaped) :
    s.callChild.Waited := by
  unfold callChild
  cases hc : s.child with
  | running => exact ⟨rfl, hlimiter⟩
  | zombie ending => exact ⟨⟨ending, rfl, rfl⟩, hlimiter⟩
  | reaped ending => exact absurd ⟨ending, hc⟩ hchild

/-- The call for the limiter waits, or reaps it. -/
theorem callLimiter_waited (hchild : s.Collected) (hlimiter : ¬ s.limiter.Reaped) :
    s.callLimiter.Waited := by
  unfold callLimiter
  cases hl : s.limiter with
  | running => exact ⟨hchild, rfl⟩
  | zombie ending => exact ⟨hchild, reaped_reaped ending⟩
  | reaped ending => exact absurd ⟨ending, hl⟩ hlimiter

theorem callLimiter_missed (hchild : ¬ s.child.Reaped) : s.callLimiter.Missed := by
  unfold callLimiter
  cases s.limiter with
  | running => exact hchild
  | zombie ending => exact Or.inl hchild
  | reaped ending => exact Or.inl hchild

theorem parentStep_waited (h : s.Waited) (ht : s.parentStep = some t) : t.Waited := by
  unfold parentStep at ht
  cases hpc : s.pc with
  | waitChild =>
    simp only [hpc, Option.some.injEq, Waited] at h ht
    exact ht ▸ callChild_waited h.1 h.2
  | waitLimiter =>
    simp only [hpc, Option.some.injEq, Waited] at h ht
    exact ht ▸ callLimiter_waited h.1 h.2
  | report =>
    simp only [hpc, Option.some.injEq, Waited] at h ht
    exact ht ▸ ⟨h.1, h.2, rfl⟩
  | blockedOnChild => simp [hpc] at ht
  | blockedOnLimiter => simp [hpc] at ht
  | exited code => simp [hpc] at ht

theorem parentStep_missed (h : s.Missed) (ht : s.parentStep = some t) : t.Missed := by
  unfold parentStep at ht
  cases hpc : s.pc with
  | waitChild => simp [Missed, hpc] at h
  | waitLimiter =>
    simp only [hpc, Option.some.injEq, Missed] at h ht
    exact ht ▸ callLimiter_missed h
  | report =>
    simp only [hpc, Option.some.injEq, Missed] at h ht
    exact ht ▸ h
  | blockedOnChild => simp [hpc] at ht
  | blockedOnLimiter => simp [hpc] at ht
  | exited code => simp [hpc] at ht

/-- A command that was running has not been collected. -/
theorem not_collected_of_running (h : s.child = .running) : ¬ s.Collected := by
  rintro ⟨ending, hc, -⟩
  rw [h] at hc
  cases hc

theorem childEnds_waited (h : s.Waited) (hchild : s.child = .running) (ending : Ending) :
    (s.childEnds ending).Waited := by
  have hnot := not_collected_of_running hchild
  unfold childEnds
  dsimp only
  cases hpc : s.pc with
  | waitChild =>
    simp only [Waited, hpc] at h
    rw [if_neg (by simp)]
    simp only [Waited]
    exact ⟨not_reaped_zombie ending, h.2⟩
  | blockedOnChild =>
    simp only [Waited, hpc] at h
    rw [if_pos rfl]
    exact callChild_waited (not_reaped_zombie ending) h.2
  | waitLimiter => simp only [Waited, hpc] at h; exact absurd h.1 hnot
  | blockedOnLimiter => simp only [Waited, hpc] at h; exact absurd h.1 hnot
  | report => simp only [Waited, hpc] at h; exact absurd h.1 hnot
  | exited code => simp only [Waited, hpc] at h; exact absurd h.1 hnot

theorem limiterEnds_waited (h : s.Waited) (hlimiter : s.limiter = .running) (ending : Ending) :
    (s.limiterEnds ending).Waited := by
  have hnot : ¬ s.limiter.Reaped := hlimiter ▸ not_reaped_running
  have hzombie := not_reaped_zombie ending
  unfold limiterEnds
  dsimp only
  cases hpc : s.pc with
  | waitChild => simp only [Waited, hpc] at h; exact ⟨h.1, hzombie⟩
  | blockedOnChild => simp only [Waited, hpc] at h; exact ⟨h.1, hzombie⟩
  | waitLimiter => simp only [Waited, hpc] at h; exact ⟨h.1, hzombie⟩
  | blockedOnLimiter =>
    simp only [Waited, hpc] at h
    rw [if_pos rfl]
    exact callLimiter_waited h.1 hzombie
  | report => simp only [Waited, hpc] at h; exact absurd h.2 hnot
  | exited code => simp only [Waited, hpc] at h; exact absurd h.2.1 hnot

theorem childEnds_missed (h : s.Missed) (ending : Ending) : (s.childEnds ending).Missed := by
  have hzombie := not_reaped_zombie ending
  unfold childEnds
  dsimp only
  cases hpc : s.pc with
  | waitChild => simp [Missed, hpc] at h
  | blockedOnChild => simp [Missed, hpc] at h
  | waitLimiter => exact hzombie
  | blockedOnLimiter => exact hzombie
  | report => exact Or.inl hzombie
  | exited code => exact Or.inl hzombie

theorem limiterEnds_missed (h : s.Missed) (ending : Ending) :
    (s.limiterEnds ending).Missed := by
  have hzombie := not_reaped_zombie ending
  unfold limiterEnds
  dsimp only
  cases hpc : s.pc with
  | waitChild => simp [Missed, hpc] at h
  | blockedOnChild => simp [Missed, hpc] at h
  | waitLimiter => simp only [Missed, hpc] at h; exact h
  | blockedOnLimiter =>
    simp only [Missed, hpc] at h
    rw [if_pos rfl]
    exact callLimiter_missed h
  | report => exact Or.inr hzombie
  | exited code => exact Or.inr hzombie

theorem sigHandler_eq (sig : HandledSignal) :
    s.sigHandler sig = { s with quitFlag := true } := by
  cases sig <;> rfl

theorem restarts_eq : restarts = false := by decide

/-- A signal outside of a wait leaves the parent where it is. -/
theorem interrupted_eq {sig : HandledSignal} (h : ¬ s.Interrupts (.signal sig)) :
    interrupted s.pc = s.pc := by
  simp only [Interrupts, not_or] at h
  cases hpc : s.pc with
  | blockedOnChild => exact absurd hpc h.1
  | blockedOnLimiter => exact absurd hpc h.2
  | waitChild => rfl
  | waitLimiter => rfl
  | report => rfl
  | exited code => rfl

/-- A signal during a wait ends it, as the handler is installed without `SA_RESTART`. -/
theorem signal_missed (h : s.Waited) {sig : HandledSignal} (hi : s.Interrupts (.signal sig)) :
    ({ s.sigHandler sig with pc := interrupted s.pc } : Parent).Missed := by
  rw [sigHandler_eq]
  rcases hi with hpc | hpc
  · simp only [Waited, hpc] at h
    simp only [Missed, hpc, interrupted, restarts_eq]
    exact h.1 ▸ not_reaped_running
  · simp only [Waited, hpc] at h
    simp only [Missed, hpc, interrupted, restarts_eq]
    exact Or.inr (h.2 ▸ not_reaped_running)

/-- One step: a wait is missed when a signal falls into it, and in no other way. -/
theorem step_waited (h : s.Waited) {e : Event} (ht : s.step e = some t) :
    ¬ s.Interrupts e ∧ t.Waited ∨ ¬ ¬ s.Interrupts e ∧ t.Missed := by
  cases e with
  | parent => exact Or.inl ⟨id, parentStep_waited h ht⟩
  | childEnds ending =>
    simp only [step] at ht
    split_ifs at ht with hchild
    cases ht
    exact Or.inl ⟨id, childEnds_waited h hchild ending⟩
  | limiterEnds ending =>
    simp only [step] at ht
    split_ifs at ht with hlimiter
    cases ht
    exact Or.inl ⟨id, limiterEnds_waited h hlimiter ending⟩
  | signal sig =>
    cases ht
    by_cases hi : s.Interrupts (.signal sig)
    · exact Or.inr ⟨not_not.mpr hi, signal_missed h hi⟩
    · refine Or.inl ⟨hi, ?_⟩
      rw [interrupted_eq hi]
      cases sig <;> exact h

/-- What was missed is not made up for. -/
theorem step_missed (h : s.Missed) {e : Event} (ht : s.step e = some t) : t.Missed := by
  cases e with
  | parent => exact parentStep_missed h ht
  | childEnds ending =>
    simp only [step] at ht
    split_ifs at ht
    cases ht
    exact childEnds_missed h ending
  | limiterEnds ending =>
    simp only [step] at ht
    split_ifs at ht
    cases ht
    exact limiterEnds_missed h ending
  | signal sig =>
    cases ht
    rw [sigHandler_eq]
    cases hpc : s.pc with
    | waitChild => simp [Missed, hpc] at h
    | blockedOnChild => simp [Missed, hpc] at h
    | waitLimiter => simp only [Missed, hpc] at h; exact h
    | blockedOnLimiter =>
      simp only [Missed, hpc] at h
      simp only [interrupted, restarts_eq]
      exact Or.inl h
    | report => simp only [Missed, hpc] at h; exact h
    | exited code => simp only [Missed, hpc] at h; exact h

/-! ## The exit -/

/-- The status of a command that exited survives the encoding. -/
theorem reported_of_exited {status : ExitStatus}
    (h : s.statusProcess = (Ending.exited status).waitStatus) : s.reported = (status : ℕ) := by
  have hlt : (status : ℕ) < 256 := status.isLt
  simp only [Ending.waitStatus] at h
  have hexited : wifExited s.statusProcess = true := by
    rw [h, wifExited, decide_eq_true_eq]
    omega
  rw [reported, if_pos hexited, h, wExitStatus, exitCode]
  omega

/-- At the exit the waits decide whether the command is reported. -/
theorem reportsCommand_of_waited {code : ℤ} (h : s.Waited) (hpc : s.pc = .exited code) :
    s.ReportsCommand code := by
  simp only [Waited, hpc] at h
  obtain ⟨⟨ending, hchild, hstatus⟩, hlimiter, hcode⟩ := h
  refine ⟨⟨ending, hchild⟩, hlimiter, fun status hended => ?_⟩
  rw [hchild] at hended
  cases hended
  rw [hcode, reported_of_exited hstatus]

theorem not_reportsCommand_of_missed {code : ℤ} (h : s.Missed) (hpc : s.pc = .exited code) :
    ¬ s.ReportsCommand code := by
  simp only [Missed, hpc] at h
  exact fun hr => h.elim (fun hn => hn hr.child) fun hn => hn hr.limiter

end Parent

/-- In every order of events, a parent that has exited has reaped both children and
passed on the status of the command, if and only if no signal arrived while it was
blocked in one of its waits. -/
theorem reportsCommand_iff_uninterrupted (statusProcess statusLimiter : ℤ) {events : List Event}
    {s : Parent} {code : ℤ}
    (hrun : Runs.runPartial Parent.step (.start statusProcess statusLimiter) events = some s)
    (hexit : s.pc = .exited code) :
    s.ReportsCommand code ↔ Runs.AlongPartial Parent.step (fun s e _ => ¬ s.Interrupts e)
      (.start statusProcess statusLimiter) events := by
  have hstart : (Parent.start statusProcess statusLimiter).Waited :=
    ⟨not_reaped_running, not_reaped_running⟩
  have hwaited : ∀ (s : Parent) (e : Event) (t : Parent), s.Waited → Parent.step s e = some t →
      ¬ s.Interrupts e ∧ t.Waited ∨ ¬ ¬ s.Interrupts e ∧ t.Missed :=
    fun _ _ _ h ht => Parent.step_waited h ht
  have hmissed : ∀ (s : Parent) (e : Event) (t : Parent), s.Missed → Parent.step s e = some t →
      t.Missed := fun _ _ _ h ht => Parent.step_missed h ht
  rcases Runs.runPartial_dichotomy hwaited hmissed hstart hrun with ⟨halong, hend⟩ | ⟨halong, hend⟩
  · exact iff_of_true (Parent.reportsCommand_of_waited hend hexit) halong
  · exact iff_of_false (Parent.not_reportsCommand_of_missed hend hexit) halong

/-- The limiter ends first, a signal arrives between the waits, and the command exits
with 7. -/
def reportedEvents : List Event :=
  [.limiterEnds (.exited 0), .signal .sigterm, .parent, .childEnds (.exited 7), .signal .sigint,
    .parent, .parent]

/-- A signal arrives while the parent waits for the command, which goes on. -/
def interruptedEvents : List Event :=
  [.parent, .signal .sigint, .parent, .limiterEnds (.exited 0), .parent, .childEnds (.exited 7)]

theorem reportsCommand_iff_uninterrupted_reported :
    Parent.ReportsCommand
      ⟨.exited 7, .reaped (.exited 7), .reaped (.exited 0), 1792, 0, true⟩ 7 := by
  have hrun : Runs.runPartial Parent.step (.start 0 0) reportedEvents =
      some ⟨.exited 7, .reaped (.exited 7), .reaped (.exited 0), 1792, 0, true⟩ := by decide
  exact (reportsCommand_iff_uninterrupted 0 0 hrun rfl).mpr (by decide)

/-- The parent exits with what the uninitialised variable held, here 0, while the
command is still running. -/
theorem not_reportsCommand_interrupted :
    ∃ s, Runs.runPartial Parent.step (.start 0 0) interruptedEvents = some s ∧
      s.pc = .exited 0 ∧ s.child = .zombie (.exited 7) ∧ ¬ s.ReportsCommand 0 := by
  refine ⟨⟨.exited 0, .zombie (.exited 7), .reaped (.exited 0), 0, 0, true⟩, by decide, rfl, rfl,
    fun h => ?_⟩
  exact not_reaped_zombie _ h.child

end CpuLimit.CommandMode
