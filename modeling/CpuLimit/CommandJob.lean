import CpuLimit.CommandMode
import CpuLimit.TargetGone

/-!
# The processes of command mode together

The parent of command mode, the limiter that it forks and the command, among other
processes. What the parent knows of its children has to fit the process table: a child
that has terminated is a zombie until the parent waits for it, and the limiter terminates
when `limit_process` has returned.
-/
namespace CpuLimit.CommandMode

open Library

/-- The processes of command mode. The limiter knows its own `pid`. -/
structure JobSetting where
  limiter : Setting
  main : Pid
  command : Pid
  main_gt : 1 < main
  command_gt : 1 < command
  self_gt : 1 < limiter.self
  main_ne_command : main ≠ command
  main_ne_self : main ≠ limiter.self
  command_ne_self : command ≠ limiter.self

/-- The parent, and the limiter with the processes around it. -/
structure Job where
  parent : Parent
  system : System

def Child.isReaped : Child → Bool
  | .running | .zombie _ => false
  | .reaped _ => true

def Parent.hasExited (s : Parent) : Bool :=
  match s.pc with
  | .exited _ => true
  | .waitChild | .blockedOnChild | .waitLimiter | .blockedOnLimiter | .report => false

/-- An event of the parent or of its children, a step of the limiter, or an event among
the other processes, where `quit` is a signal to the limiter. -/
inductive JobEvent
  | parent (event : Event)
  | limiter (answer : Answer)
  | env (event : Os.EnvEvent)

namespace JobSetting

variable (j : JobSetting)

/-- A child terminates. -/
def ends : Event → List Os.EnvEvent
  | .childEnds _ => [.exit j.command]
  | .limiterEnds _ => [.exit j.limiter.self]
  | .parent | .signal _ => []

/-- A wait has reaped the child. -/
def reaps (pid : Pid) (before after : Child) : List Os.EnvEvent :=
  if after.isReaped && !before.isReaped then [.reap pid] else []

/-- The parent has reaped children, or exited. -/
def settles (s t : Parent) : List Os.EnvEvent :=
  reaps j.command s.child t.child ++ (reaps j.limiter.self s.limiter t.limiter ++
    if t.hasExited && !s.hasExited then [.exit j.main] else [])

/-- What an event of the parent or its children does to the process table. -/
def changes (s : Parent) (event : Event) (t : Parent) : List Os.EnvEvent :=
  j.ends event ++ j.settles s t

/-- The limiter terminates after the return of `limit_process`, with success. -/
def Due (s : Job) : Event → Prop
  | .limiterEnds ending => s.system.pc = .returned ∧ ending = exitSuccess
  | .parent | .childEnds _ | .signal _ => True

instance (s : Job) (event : Event) : Decidable (Due s event) :=
  match event with
  | .limiterEnds _ => inferInstanceAs (Decidable (_ ∧ _))
  | .parent | .childEnds _ | .signal _ => inferInstanceAs (Decidable True)

/-- The event is none of those that the job itself takes care of: its processes terminate
by themselves, and the parent reaps its children as long as it lives. -/
def Leaves (s : Job) : Os.EnvEvent → Prop
  | .exit pid => (pid = j.main → s.parent.hasExited = true) ∧
      (pid = j.command → s.parent.child ≠ .running) ∧
      (pid = j.limiter.self → s.parent.limiter ≠ .running)
  | .reap pid => s.parent.hasExited = true ∨
      (pid = j.command → s.parent.child.isReaped = true) ∧
      (pid = j.limiter.self → s.parent.limiter.isReaped = true)
  | _ => True

instance (s : Job) (event : Os.EnvEvent) : Decidable (j.Leaves s event) :=
  match event with
  | .exit _ => inferInstanceAs (Decidable (_ ∧ _))
  | .reap _ => inferInstanceAs (Decidable (_ ∨ _))
  | .fork _ _ _ _ => inferInstanceAs (Decidable True)
  | .setReadable _ _ => inferInstanceAs (Decidable True)
  | .setStartReadable _ _ => inferInstanceAs (Decidable True)
  | .setProcOpens _ => inferInstanceAs (Decidable True)
  | .recover => inferInstanceAs (Decidable True)
  | .quit => inferInstanceAs (Decidable True)

/-- One event; `none` when it cannot happen. -/
def step (s : Job) : JobEvent → Option Job
  | .parent event =>
    if Due s event then
      (s.parent.step event).bind fun parent =>
        (Runs.runPartial Os.envStep s.system.os (j.changes s.parent event parent)).map fun os =>
          ⟨parent, { s.system with os := os }⟩
    else none
  | .limiter a =>
    (s.system.limiterStep j.limiter a).map fun system => { s with system := system }
  | .env event =>
    if j.Leaves s event then
      (s.system.os.envStep event).map fun os => { s with system := { s.system with os := os } }
    else none

/-- After the second fork. A command that has terminated before it is one that terminates
right after it. -/
def start (os : Os) (includeChildren : Bool) (now : Timespec) (timeSlot : ℚ)
    (statusProcess statusLimiter : ℤ) : Job :=
  ⟨.start statusProcess statusLimiter, .start os j.command includeChildren now timeSlot⟩

end JobSetting

/-- The event gives the `pid` to a new process. -/
def JobEvent.Reuses (pid : Pid) : JobEvent → Prop
  | .env event => event.Forks pid
  | .parent _ | .limiter _ => False

/-- A bound on the steps that the parent has left. -/
def Pc.callsLeft : Pc → ℕ
  | .waitChild => 3
  | .blockedOnChild | .waitLimiter => 2
  | .blockedOnLimiter | .report => 1
  | .exited _ => 0

/-- The parent has not come to an end of its wait for the command. -/
def Pc.waitsForCommand : Pc → Bool
  | .waitChild | .blockedOnChild => true
  | .waitLimiter | .blockedOnLimiter | .report | .exited _ => false

/-! ## Steps of the parent -/

/-- The child after the event, but before a wait for it returns. -/
def Event.childAfter : Event → Child → Child
  | .childEnds ending, _ => .zombie ending
  | .parent, c | .limiterEnds _, c | .signal _, c => c

def Event.limiterAfter : Event → Child → Child
  | .limiterEnds ending, _ => .zombie ending
  | .parent, c | .childEnds _, c | .signal _, c => c

/-- A wait returns with the status, or there is no such wait. -/
def Collects (c d : Child) : Prop := d = c ∨ ∃ ending, c = .zombie ending ∧ d = .reaped ending

namespace Parent

variable {s t : Parent} {e : Event}

/-- The parent is blocked on running children only. -/
structure Blocks (s : Parent) : Prop where
  child : s.pc = .blockedOnChild → s.child = .running
  limiter : s.pc = .blockedOnLimiter → s.limiter = .running

/-- What one event can do to the parent. -/
structure Moves (s : Parent) (e : Event) (t : Parent) : Prop where
  child : Collects (e.childAfter s.child) t.child
  limiter : Collects (e.limiterAfter s.limiter) t.limiter
  ended : ∀ ending, (e = .childEnds ending → s.child = .running) ∧
    (e = .limiterEnds ending → s.limiter = .running)
  exited : s.hasExited = true → t.hasExited = true ∧
    t.child = e.childAfter s.child ∧ t.limiter = e.limiterAfter s.limiter
  blocks : s.Blocks → t.Blocks
  past : s.pc.waitsForCommand = false → t.pc.waitsForCommand = false
  calls : t.pc.callsLeft + (if e = .parent then 1 else 0) ≤ s.pc.callsLeft

theorem callChild_spec (s : Parent) : Collects s.child s.callChild.child ∧
    s.callChild.limiter = s.limiter ∧ s.callChild.Blocks ∧ s.callChild.pc.callsLeft ≤ 2 := by
  unfold callChild
  cases hc : s.child with
  | running => exact ⟨Or.inl rfl, rfl, ⟨fun _ => rfl, nofun⟩, le_rfl⟩
  | zombie ending => exact ⟨Or.inr ⟨ending, rfl, rfl⟩, rfl, ⟨nofun, nofun⟩, le_rfl⟩
  | reaped ending => exact ⟨Or.inl rfl, rfl, ⟨nofun, nofun⟩, le_rfl⟩

theorem callLimiter_spec (s : Parent) : s.callLimiter.child = s.child ∧
    Collects s.limiter s.callLimiter.limiter ∧ s.callLimiter.Blocks ∧
    s.callLimiter.pc.waitsForCommand = false ∧ s.callLimiter.pc.callsLeft ≤ 1 := by
  unfold callLimiter
  cases hl : s.limiter with
  | running => exact ⟨rfl, Or.inl rfl, ⟨nofun, fun _ => rfl⟩, rfl, le_rfl⟩
  | zombie ending => exact ⟨rfl, Or.inr ⟨ending, rfl, rfl⟩, ⟨nofun, nofun⟩, rfl, le_rfl⟩
  | reaped ending => exact ⟨rfl, Or.inl rfl, ⟨nofun, nofun⟩, rfl, le_rfl⟩

theorem hasExited_eq_true : s.hasExited = true ↔ ∃ code, s.pc = .exited code := by
  unfold hasExited
  cases s.pc <;> simp

/-- A parent that has a call or the report before it has not exited. -/
theorem hasExited_of_callsLeft (h : s.pc.callsLeft ≠ 0) : s.hasExited = false := by
  rw [← Bool.not_eq_true, hasExited_eq_true]
  rintro ⟨code, hpc⟩
  rw [hpc] at h
  exact h rfl

theorem parentStep_moves (h : s.parentStep = some t) : s.Moves .parent t := by
  unfold parentStep at h
  cases hpc : s.pc with
  | waitChild =>
    simp only [hpc, Option.some.injEq] at h
    subst h
    obtain ⟨hchild, hlimiter, hblocks, hcalls⟩ := s.callChild_spec
    have hleft : s.pc.callsLeft = 3 := by rw [hpc]; rfl
    have hlive : s.hasExited = false := hasExited_of_callsLeft (by simp [hleft])
    exact ⟨hchild, Or.inl hlimiter, fun _ => ⟨nofun, nofun⟩, by simp [hlive], fun _ => hblocks,
      by simp [hpc, Pc.waitsForCommand], hleft ▸ Nat.succ_le_succ hcalls⟩
  | waitLimiter =>
    simp only [hpc, Option.some.injEq] at h
    subst h
    obtain ⟨hchild, hlimiter, hblocks, hpast, hcalls⟩ := s.callLimiter_spec
    have hleft : s.pc.callsLeft = 2 := by rw [hpc]; rfl
    have hlive : s.hasExited = false := hasExited_of_callsLeft (by simp [hleft])
    exact ⟨Or.inl hchild, hlimiter, fun _ => ⟨nofun, nofun⟩, by simp [hlive], fun _ => hblocks,
      fun _ => hpast, hleft ▸ Nat.succ_le_succ hcalls⟩
  | report =>
    simp only [hpc, Option.some.injEq] at h
    subst h
    have hlive : s.hasExited = false := hasExited_of_callsLeft (by simp [hpc, Pc.callsLeft])
    exact ⟨Or.inl rfl, Or.inl rfl, fun _ => ⟨nofun, nofun⟩, by simp [hlive],
      fun _ => ⟨nofun, nofun⟩, fun _ => rfl, by simp [hpc, Pc.callsLeft]⟩
  | blockedOnChild | blockedOnLimiter | exited code => simp [hpc] at h

theorem childEnds_moves (hchild : s.child = .running) (ending : Ending) :
    s.Moves (.childEnds ending) (s.childEnds ending) := by
  unfold childEnds
  dsimp only
  by_cases hpc : s.pc = .blockedOnChild
  · rw [if_pos hpc]
    obtain ⟨hcollects, hlimiter, hblocks, hcalls⟩ :=
      callChild_spec { s with child := .zombie ending }
    have hleft : s.pc.callsLeft = 2 := by rw [hpc]; rfl
    have hlive : s.hasExited = false := hasExited_of_callsLeft (by simp [hleft])
    exact ⟨hcollects, Or.inl hlimiter, fun _ => ⟨fun _ => hchild, nofun⟩, by simp [hlive],
      fun _ => hblocks, by simp [hpc, Pc.waitsForCommand], hleft ▸ hcalls⟩
  · rw [if_neg hpc]
    exact ⟨Or.inl rfl, Or.inl rfl, fun _ => ⟨fun _ => hchild, nofun⟩, fun h => ⟨h, rfl, rfl⟩,
      fun h => ⟨fun hb => absurd hb hpc, h.limiter⟩, id, le_rfl⟩

theorem limiterEnds_moves (hlimiter : s.limiter = .running) (ending : Ending) :
    s.Moves (.limiterEnds ending) (s.limiterEnds ending) := by
  unfold limiterEnds
  dsimp only
  by_cases hpc : s.pc = .blockedOnLimiter
  · rw [if_pos hpc]
    obtain ⟨hchild, hcollects, hblocks, hpast, hcalls⟩ :=
      callLimiter_spec { s with limiter := .zombie ending }
    have hleft : s.pc.callsLeft = 1 := by rw [hpc]; rfl
    have hlive : s.hasExited = false := hasExited_of_callsLeft (by simp [hleft])
    exact ⟨Or.inl hchild, hcollects, fun _ => ⟨nofun, fun _ => hlimiter⟩, by simp [hlive],
      fun _ => hblocks, fun _ => hpast, hleft ▸ hcalls⟩
  · rw [if_neg hpc]
    exact ⟨Or.inl rfl, Or.inl rfl, fun _ => ⟨nofun, fun _ => hlimiter⟩, fun h => ⟨h, rfl, rfl⟩,
      fun h => ⟨h.child, fun hb => absurd hb hpc⟩, id, le_rfl⟩

theorem signal_moves (sig : HandledSignal) :
    s.Moves (.signal sig) { s.sigHandler sig with pc := interrupted s.pc } := by
  rw [sigHandler_eq]
  refine ⟨Or.inl rfl, Or.inl rfl, fun _ => ⟨nofun, nofun⟩, fun h => ⟨?_, rfl, rfl⟩, fun _ => ?_,
    ?_, ?_⟩
  · obtain ⟨code, hpc⟩ := hasExited_eq_true.mp h
    exact hasExited_eq_true.mpr ⟨code, by rw [hpc]; rfl⟩
  · constructor <;> cases s.pc <;> simp [interrupted, restarts_eq]
  · cases s.pc <;> simp [interrupted, restarts_eq, Pc.waitsForCommand]
  · cases s.pc <;> simp [interrupted, restarts_eq, Pc.callsLeft]

theorem step_moves (h : s.step e = some t) : s.Moves e t := by
  cases e with
  | parent => exact parentStep_moves h
  | childEnds ending =>
    simp only [step] at h
    split_ifs at h with hchild
    cases h
    exact childEnds_moves hchild ending
  | limiterEnds ending =>
    simp only [step] at h
    split_ifs at h with hlimiter
    cases h
    exact limiterEnds_moves hlimiter ending
  | signal sig =>
    cases h
    exact signal_moves sig

end Parent

/-! ## The children in the process table -/

/-- The process table shows the child as the parent sees it. After the exit of the parent
other processes may reap its zombies. -/
def Shows (os : Os) (pid : Pid) (exited : Bool) : Child → Prop
  | .running => os.alive pid = true
  | .zombie _ => exited = true ∨ (os.proc pid).any OsProcess.zombie = true
  | .reaped _ => True

section Table

variable {os os' : Os} {pid : Pid} {exited : Bool} {c c' d : Child} {event : Os.EnvEvent}

theorem zombie_of_exit (h : os.envStep (.exit pid) = some os') :
    (os'.proc pid).any OsProcess.zombie = true ∧ os'.alive pid = false := by
  obtain ⟨⟨halive, -⟩, -, hproc⟩ := Os.envStep_spec h
  obtain ⟨p, hp, -⟩ := Os.alive_iff.mp halive
  have hafter : os'.proc pid = some (Os.exitOf pid p) := by rw [hproc, hp]; rfl
  have hz : (Os.exitOf pid p).zombie = true := if_pos (Os.mem_of_proc hp).2
  rw [Os.alive, hafter]
  simp [hz]

theorem Shows.envStep (h : Shows os pid exited c) (hs : os.envStep event = some os')
    (hexit : event = .exit pid → c ≠ .running)
    (hreap : event = .reap pid → exited = true ∨ c.isReaped = true) :
    Shows os' pid exited c := by
  cases c with
  | running => exact Os.envStep_alive hs h fun he => hexit he rfl
  | zombie ending =>
    refine h.elim Or.inl fun hz => ?_
    by_cases he : event = .reap pid
    · exact (hreap he).imp_right nofun
    · obtain ⟨p, hp, hpz⟩ := (Option.any_eq_true _ _).mp hz
      obtain ⟨p', hp', hkeeps⟩ := Os.envStep_forth hs hp he
      exact Or.inr (by simp [hp', hkeeps.zombie hpz])
  | reaped ending => trivial

theorem Shows.of_run {events : List Os.EnvEvent} (h : Shows os pid exited c)
    (hrun : Runs.runPartial Os.envStep os events = some os')
    (hexit : .exit pid ∈ events → c ≠ .running) (hreap : .reap pid ∈ events → c.isReaped = true) :
    Shows os' pid exited c := by
  have hstep : ∀ (m : Os) event m', Shows m pid exited c → event ∈ events →
      m.envStep event = some m' → Shows m' pid exited c :=
    fun m event m' hm he hs => hm.envStep hs (fun heq => hexit (heq ▸ he)) fun heq =>
      Or.inr (hreap (heq ▸ he))
  exact Runs.runPartial_invariant_of_forall hstep h (fun _ => id) hrun

theorem Shows.mono (h : Shows os pid exited c) {exited' : Bool}
    (hle : exited = true → exited' = true) : Shows os pid exited' c := by
  cases c with
  | running => exact h
  | zombie ending => exact h.imp_left hle
  | reaped ending => trivial

theorem not_alive_of_run {events : List Os.EnvEvent} (h : os.alive pid = false)
    (hrun : Runs.runPartial Os.envStep os events = some os')
    (hfork : ∀ event ∈ events, ¬ event.Forks pid) : os'.alive pid = false :=
  Runs.runPartial_invariant_of_forall (fun _ _ _ => Os.not_alive_of_envStep) h hfork hrun

theorem mem_reaps : event ∈ JobSetting.reaps pid c d ↔
    event = .reap pid ∧ d.isReaped = true ∧ c.isReaped = false := by
  unfold JobSetting.reaps
  split_ifs with h
  · simpa using fun _ => h
  · simp only [List.not_mem_nil, false_iff]
    rintro ⟨-, hd, hc⟩
    exact h (by simp [hd, hc])

/-- Reaping one process leaves the others. -/
theorem Shows.of_reaps {other : Pid} {a b : Child} (h : Shows os pid exited c)
    (hrun : Runs.runPartial Os.envStep os (JobSetting.reaps other a b) = some os')
    (hne : pid ≠ other) : Shows os' pid exited c :=
  h.of_run hrun (by simp [mem_reaps]) fun he =>
    absurd (Os.EnvEvent.reap.inj (mem_reaps.mp he).1) hne

/-- Only a wait for a zombie reaps. -/
theorem exists_reaped (h : Shows os pid exited c') (hcollects : Collects c' d)
    (hafter : c'.isReaped = true → c.isReaped = true) (hexited : exited = true → d = c') :
    ∃ os', Runs.runPartial Os.envStep os (JobSetting.reaps pid c d) = some os' := by
  unfold JobSetting.reaps
  split_ifs with hreaps
  · obtain ⟨hd, hc⟩ : d.isReaped = true ∧ c.isReaped = false := by simpa using hreaps
    have hc' : c'.isReaped = false := by
      by_contra hne
      rw [hafter (Bool.not_eq_false _ ▸ hne)] at hc
      cases hc
    rcases hcollects with rfl | ⟨ending, rfl, rfl⟩
    · rw [hd] at hc'
      cases hc'
    · have hzombie := h.resolve_left fun he => by cases hexited he
      refine ⟨_, (Runs.runPartial_cons_eq_some _).mpr ⟨_, if_pos hzombie, rfl⟩⟩
  · exact ⟨os, rfl⟩

end Table

/-! ## What holds throughout a run -/

/-- What the parent knows fits the processes, and the limiter terminates only after the
return. -/
structure JobSetting.Coupled (j : JobSetting) (s : Job) : Prop where
  planted : s.system.Planted
  target : s.system.group.targetPid = j.command
  main : s.parent.hasExited = false → s.system.os.alive j.main = true
  command : Shows s.system.os j.command s.parent.hasExited s.parent.child
  limiter : Shows s.system.os j.limiter.self s.parent.hasExited s.parent.limiter
  returned : s.parent.limiter ≠ .running → s.system.pc = .returned
  blocks : s.parent.Blocks

/-- A command that has terminated does not live, and its `pid` has not been used again. -/
def JobSetting.Gone (j : JobSetting) (s : Job) : Prop :=
  s.parent.child ≠ .running → s.system.os.alive j.command = false

namespace JobSetting

variable {j : JobSetting} {s t : Job} {event : Event}

/-- The table after an event of the parent or its children shows one of the children as
the parent then sees it. -/
theorem shows_changes {os os' : Os} {pid : Pid} {exited exited' : Bool} {c c' d : Child}
    {ends later : List Os.EnvEvent} (h : Shows os pid exited c)
    (hrun : Runs.runPartial Os.envStep os (ends ++ later) = some os')
    (hends : ends = [.exit pid] ∧ (∃ ending, c' = .zombie ending) ∨
      c' = c ∧ .exit pid ∉ ends ∧ .reap pid ∉ ends)
    (hcollects : Collects c' d) (hexit : .exit pid ∉ later)
    (hreap : .reap pid ∈ later → d.isReaped = true) (hle : exited = true → exited' = true) :
    Shows os' pid exited' d := by
  obtain ⟨m, hm, hlater⟩ := (Runs.runPartial_append_eq_some _).mp hrun
  have hmid : Shows m pid exited c' := by
    rcases hends with ⟨rfl, ending, rfl⟩ | ⟨rfl, hnoExit, hnoReap⟩
    · obtain ⟨m', hm', hnil⟩ := (Runs.runPartial_cons_eq_some _).mp hm
      cases hnil
      exact Or.inr (zombie_of_exit hm').1
    · exact h.of_run hm (fun he => absurd he hnoExit) fun he => absurd he hnoReap
  rcases hcollects with rfl | ⟨ending, rfl, rfl⟩
  · exact (hmid.of_run hlater (fun he => absurd he hexit) hreap).mono hle
  · trivial

theorem exit_mem_ends {pid : Pid} (h : .exit pid ∈ j.ends event) :
    pid = j.command ∨ pid = j.limiter.self := by
  cases event <;> simp_all [ends]

theorem reap_not_mem_ends (pid : Pid) : .reap pid ∉ j.ends event := by
  cases event <;> simp [ends]

theorem exit_mem_settles {p q : Parent} {pid : Pid} (h : .exit pid ∈ j.settles p q) :
    pid = j.main ∧ q.hasExited = true := by
  simp only [settles, List.mem_append, mem_reaps, reduceCtorEq, false_and, false_or] at h
  split_ifs at h with hexits
  · obtain ⟨hq, -⟩ : q.hasExited = true ∧ p.hasExited = false := by simpa using hexits
    simp only [List.mem_singleton, Os.EnvEvent.exit.injEq] at h
    exact ⟨h, hq⟩
  · cases h

theorem reap_mem_settles {p q : Parent} {pid : Pid} (h : .reap pid ∈ j.settles p q) :
    pid = j.command ∧ q.child.isReaped = true ∨
      pid = j.limiter.self ∧ q.limiter.isReaped = true := by
  simp only [settles, List.mem_append, mem_reaps, Os.EnvEvent.reap.injEq] at h
  rcases h with ⟨rfl, hq, -⟩ | ⟨rfl, hq, -⟩ | h
  · exact Or.inl ⟨rfl, hq⟩
  · exact Or.inr ⟨rfl, hq⟩
  · split_ifs at h <;> simp at h

theorem not_forks_of_mem_changes {p q : Parent} {e : Os.EnvEvent}
    (h : e ∈ j.changes p event q) (pid : Pid) : ¬ e.Forks pid := by
  rintro hf
  cases e with
  | fork parent child startTime permitted =>
    simp only [changes, settles, List.mem_append, mem_reaps, reduceCtorEq, false_and,
      false_or] at h
    rcases h with h | h
    · cases event <;> simp [ends] at h
    · split_ifs at h <;> simp at h
  | exit gone | reap gone | setReadable target readable | setStartReadable target readable
  | setProcOpens opens | recover | quit => exact hf

theorem step_parent (h : j.step s (.parent event) = some t) :
    Due s event ∧ s.parent.step event = some t.parent ∧ ∃ os,
      Runs.runPartial Os.envStep s.system.os (j.changes s.parent event t.parent) = some os ∧
        t.system = { s.system with os := os } := by
  simp only [step] at h
  split_ifs at h with hdue
  obtain ⟨q, hq, hrest⟩ := Option.bind_eq_some_iff.mp h
  obtain ⟨os, hos, rfl⟩ := Option.map_eq_some_iff.mp hrest
  exact ⟨hdue, hq, os, hos, rfl⟩

theorem step_limiter {a : Answer} (h : j.step s (.limiter a) = some t) :
    ∃ system, s.system.limiterStep j.limiter a = some system ∧ t = { s with system := system } := by
  obtain ⟨system, hsystem, rfl⟩ := Option.map_eq_some_iff.mp h
  exact ⟨system, hsystem, rfl⟩

theorem step_env {e : Os.EnvEvent} (h : j.step s (.env e) = some t) : j.Leaves s e ∧
    ∃ os, s.system.os.envStep e = some os ∧
      t = { s with system := { s.system with os := os } } := by
  simp only [step] at h
  split_ifs at h with hleaves
  obtain ⟨os, hos, rfl⟩ := Option.map_eq_some_iff.mp h
  exact ⟨hleaves, os, hos, rfl⟩

/-- Nothing but the processes around the limiter changes. -/
theorem planted_of_tree {s : System} (h : s.Planted) {os : Os} (ht : os.Tree) :
    ({ s with os := os } : System).Planted :=
  ⟨⟨h.grounded.coherent, h.grounded.target_pos, h.grounded.distinct, h.grounded.reading_pos,
    h.grounded.only⟩, ht⟩

theorem tree_of_run {os os' : Os} {events : List Os.EnvEvent} (h : os.Tree)
    (hrun : Runs.runPartial Os.envStep os events = some os') : os'.Tree :=
  Runs.runPartial_invariant (fun _ _ _ ht hs => ht.envStep hs) h hrun

/-- The event ends the command, or leaves it as it is. -/
theorem ends_command (j : JobSetting) (event : Event) (c : Child) :
    j.ends event = [.exit j.command] ∧ (∃ ending, event.childAfter c = .zombie ending) ∨
      event.childAfter c = c ∧ .exit j.command ∉ j.ends event ∧ .reap j.command ∉ j.ends event := by
  cases event with
  | childEnds ending => exact Or.inl ⟨rfl, ending, rfl⟩
  | limiterEnds ending => exact Or.inr ⟨rfl, by simp [ends, j.command_ne_self], by simp [ends]⟩
  | parent | signal sig => exact Or.inr ⟨rfl, by simp [ends], by simp [ends]⟩

theorem ends_limiter (j : JobSetting) (event : Event) (c : Child) :
    j.ends event = [.exit j.limiter.self] ∧ (∃ ending, event.limiterAfter c = .zombie ending) ∨
      event.limiterAfter c = c ∧ .exit j.limiter.self ∉ j.ends event ∧
        .reap j.limiter.self ∉ j.ends event := by
  cases event with
  | limiterEnds ending => exact Or.inl ⟨rfl, ending, rfl⟩
  | childEnds ending =>
    exact Or.inr ⟨rfl, by simp [ends, j.command_ne_self.symm], by simp [ends]⟩
  | parent | signal sig => exact Or.inr ⟨rfl, by simp [ends], by simp [ends]⟩

theorem main_not_mem_changes (j : JobSetting) (p : Parent) (event : Event) {q : Parent}
    (hq : q.hasExited = false) :
    .exit j.main ∉ j.changes p event q ∧ .reap j.main ∉ j.changes p event q := by
  simp only [changes, List.mem_append, not_or]
  refine ⟨⟨fun he => ?_, fun he => ?_⟩, reap_not_mem_ends _, fun he => ?_⟩
  · exact (exit_mem_ends he).elim j.main_ne_command j.main_ne_self
  · rw [(exit_mem_settles he).2] at hq
    cases hq
  · exact (reap_mem_settles he).elim (fun h => j.main_ne_command h.1) fun h => j.main_ne_self h.1

/-- A command that was gone stays gone, and one that the event ends is gone. -/
theorem not_alive_of_changes {os os' : Os} {p q : Parent} (hm : p.Moves event q)
    (hgone : p.child ≠ .running → os.alive j.command = false)
    (hrun : Runs.runPartial Os.envStep os (j.changes p event q) = some os')
    (hended : q.child ≠ .running) : os'.alive j.command = false := by
  have hforks : ∀ e ∈ j.changes p event q, ¬ e.Forks j.command := fun e he =>
    not_forks_of_mem_changes he _
  by_cases hp : p.child = .running
  · rcases j.ends_command event p.child with ⟨hends, -⟩ | ⟨hafter, -⟩
    · obtain ⟨m, hm', hlater⟩ := (Runs.runPartial_append_eq_some _).mp hrun
      rw [hends] at hm'
      obtain ⟨m', hexit, hnil⟩ := (Runs.runPartial_cons_eq_some _).mp hm'
      cases hnil
      exact not_alive_of_run (zombie_of_exit hexit).2 hlater fun e he =>
        hforks e (List.mem_append_right _ he)
    · have hchild := hm.child
      rw [hafter, hp] at hchild
      rcases hchild with hq | ⟨ending, hq, -⟩
      · exact absurd hq hended
      · cases hq
  · exact not_alive_of_run (hgone hp) hrun hforks

theorem Coupled.parent (h : j.Coupled s) (hs : j.step s (.parent event) = some t) :
    j.Coupled t := by
  obtain ⟨hdue, hparent, os, hrun, hsystem⟩ := step_parent hs
  have hm := Parent.step_moves hparent
  have hexited : s.parent.hasExited = true → t.parent.hasExited = true := fun he =>
    (hm.exited he).1
  have hnoExit : ∀ {pid}, pid ≠ j.main → .exit pid ∉ j.settles s.parent t.parent :=
    fun hne he => hne (exit_mem_settles he).1
  refine ⟨?_, ?_, ?_, ?_, ?_, ?_, hm.blocks h.blocks⟩
  · rw [hsystem]
    exact planted_of_tree h.planted (tree_of_run h.planted.tree hrun)
  · rw [hsystem]
    exact h.target
  · intro hlive
    have hold : s.parent.hasExited = false := by
      by_contra hne
      rw [hexited (Bool.not_eq_false _ ▸ hne)] at hlive
      cases hlive
    have hshows : Shows s.system.os j.main false .running := h.main hold
    have hnot := j.main_not_mem_changes s.parent event hlive
    rw [hsystem]
    exact hshows.of_run hrun (fun he => absurd he hnot.1) fun he => absurd he hnot.2
  · rw [hsystem]
    refine shows_changes h.command hrun (j.ends_command event _) hm.child
      (hnoExit j.main_ne_command.symm) (fun he => ?_) hexited
    exact (reap_mem_settles he).elim And.right fun hself => absurd hself.1 j.command_ne_self
  · rw [hsystem]
    refine shows_changes h.limiter hrun (j.ends_limiter event _) hm.limiter
      (hnoExit j.main_ne_self.symm) (fun he => ?_) hexited
    exact (reap_mem_settles he).elim (fun hcmd => absurd hcmd.1.symm j.command_ne_self) And.right
  · rw [hsystem]
    intro hended
    by_cases hlimiter : s.parent.limiter = .running
    · cases event with
      | limiterEnds ending => exact hdue.1
      | parent | childEnds ending | signal sig =>
        rcases hm.limiter with hsame | ⟨ending, hzombie, -⟩
        · exact absurd (hsame.trans hlimiter) hended
        · exact absurd (hlimiter.symm.trans hzombie) nofun
    · exact h.returned hlimiter

theorem shows_deliver {os : Os} {pid : Pid} {exited : Bool} {c : Child}
    (h : Shows os pid exited c) (target : Pid) (signal : Signal) :
    Shows (os.deliver target signal) pid exited c := by
  cases c with
  | running => exact (Os.alive_deliver _ _ _ _).trans h
  | zombie ending =>
    refine h.imp_right fun hz => ?_
    obtain ⟨p, hp, hpz⟩ := (Option.any_eq_true _ _).mp hz
    rw [Os.proc_deliver, hp, Option.map_some, Option.any_some]
    split_ifs <;> exact hpz
  | reaped ending => trivial

/-- Signals neither end nor reap processes. -/
theorem limiterStep_keeps {s t : System} {c : Setting} {a : Answer} (h : s.Grounded)
    (hs : s.limiterStep c a = some t) (pid : Pid) : t.os.alive pid = s.os.alive pid ∧
      ∀ exited child, Shows s.os pid exited child → Shows t.os pid exited child := by
  rcases System.delivers_of_limiterStep h hs with hos | ⟨target, signal, hos⟩
  · rw [hos]
    exact ⟨rfl, fun _ _ => id⟩
  · rw [hos]
    exact ⟨Os.alive_deliver _ _ _ _, fun _ _ hc => shows_deliver hc _ _⟩

theorem Coupled.limiter_step {a : Answer} (h : j.Coupled s)
    (hs : j.step s (.limiter a) = some t) : j.Coupled t := by
  obtain ⟨system, hsystem, rfl⟩ := step_limiter hs
  have hstep : s.system.step j.limiter (.limiter a) = some system := hsystem
  have hkeeps := limiterStep_keeps h.planted.grounded hsystem
  have htarget := congrArg ProcessFilter.pid (System.filter_of_step h.planted.grounded hstep)
  refine ⟨h.planted.step hstep, htarget.trans h.target, fun hlive => ?_, ?_, ?_,
    fun hended => ?_, h.blocks⟩
  · exact (hkeeps _).1.trans (h.main hlive)
  · exact (hkeeps _).2 _ _ h.command
  · exact (hkeeps _).2 _ _ h.limiter
  · -- a limiter that has terminated takes no step
    simp [System.limiterStep, h.returned hended] at hsystem

theorem Coupled.env {event : Os.EnvEvent} (h : j.Coupled s) (hs : j.step s (.env event) = some t) :
    j.Coupled t := by
  obtain ⟨hleaves, os, hos, rfl⟩ := step_env hs
  refine ⟨planted_of_tree h.planted (h.planted.tree.envStep hos), h.target, fun hlive => ?_, ?_, ?_,
    h.returned, h.blocks⟩
  · refine Os.envStep_alive hos (h.main hlive) ?_
    rintro rfl
    rw [hleaves.1 rfl] at hlive
    cases hlive
  · refine h.command.envStep hos ?_ ?_
    · rintro rfl
      exact hleaves.2.1 rfl
    · rintro rfl
      exact hleaves.imp_right fun hreaped => hreaped.1 rfl
  · refine h.limiter.envStep hos ?_ ?_
    · rintro rfl
      exact hleaves.2.2 rfl
    · rintro rfl
      exact hleaves.imp_right fun hreaped => hreaped.2 rfl

theorem Coupled.step {e : JobEvent} (h : j.Coupled s) (hs : j.step s e = some t) :
    j.Coupled t := by
  cases e with
  | parent event => exact h.parent hs
  | limiter a => exact h.limiter_step hs
  | env event => exact h.env hs

theorem Gone.step {e : JobEvent} (hc : j.Coupled s) (h : j.Gone s)
    (hreuse : ¬ e.Reuses j.command) (hs : j.step s e = some t) : j.Gone t := by
  cases e with
  | parent event =>
    obtain ⟨-, hparent, os, hrun, hsystem⟩ := step_parent hs
    intro hended
    rw [hsystem]
    exact not_alive_of_changes (Parent.step_moves hparent) h hrun hended
  | limiter a =>
    obtain ⟨system, hsystem, rfl⟩ := step_limiter hs
    exact fun hended => (limiterStep_keeps hc.planted.grounded hsystem _).1.trans (h hended)
  | env event =>
    obtain ⟨-, os, hos, rfl⟩ := step_env hs
    exact fun hended => Os.not_alive_of_envStep (h hended) hreuse hos

theorem start_coupled {os : Os} (htree : os.Tree) (hmain : os.alive j.main = true)
    (hcommand : os.alive j.command = true) (hself : os.alive j.limiter.self = true)
    (includeChildren : Bool) (now : Timespec) (timeSlot : ℚ) (statusProcess statusLimiter : ℤ) :
    j.Coupled (j.start os includeChildren now timeSlot statusProcess statusLimiter) where
  planted := System.start_planted htree (lt_trans zero_lt_one j.command_gt) includeChildren now
    timeSlot
  target := rfl
  main _ := hmain
  command := hcommand
  limiter := hself
  returned h := absurd rfl h
  blocks := ⟨nofun, nofun⟩

end JobSetting

end CpuLimit.CommandMode
