import CpuLimit.CommandJob
import CpuLimit.SelfWalk

/-!
# The end of command mode

When the command has terminated, or the limiter has been told to quit, the parent and the
limiter have a bounded number of steps left, and each of them can go on to its exit: the
limiter finds nobody any more or leaves its loop, and the parent waits only for processes
that it can reap. A parent that still waits for a running command is the exception.
-/
namespace CpuLimit.CommandMode

open Library

namespace JobEvent

/-- A step of one of the two processes of cpulimit. -/
def isOwn : JobEvent → Bool
  | .parent .parent | .parent (.limiterEnds _) | .limiter _ => true
  | .parent (.childEnds _) | .parent (.signal _) | .env _ => false

/-- The length of the directory that is shown. -/
def listed : JobEvent → ℕ
  | .limiter a => a.listing.length
  | .parent _ | .env _ => 0

end JobEvent

/-- A signal arrives while the parent is blocked in `waitpid`. -/
def Job.Interrupts (s : Job) : JobEvent → Prop
  | .parent event => s.parent.Interrupts event
  | .limiter _ | .env _ => False

instance (s : Job) (e : JobEvent) : Decidable (s.Interrupts e) :=
  match e with
  | .parent event => inferInstanceAs (Decidable (s.parent.Interrupts event))
  | .limiter _ | .env _ => inferInstanceAs (Decidable False)

/-- Both processes of cpulimit have ended, the parent with this code. -/
structure Job.Over (s : Job) (code : ℤ) : Prop where
  exited : s.parent.pc = .exited code
  limiter : s.parent.limiter ≠ .running
  returned : s.system.pc = .returned

/-- A bound on the steps of cpulimit, from one on those that `limit_process` has left when
no directory that it opens has more than `listed` entries. -/
def Job.ownSteps (left : ℕ → System → ℕ) (listed : ℕ) (s : Job) : ℕ :=
  s.parent.pc.callsLeft + left listed s.system + if s.parent.limiter = .running then 1 else 0

/-- The parent does not wait for a running command. -/
def Parent.Past (s : Parent) : Prop := s.child ≠ .running ∨ s.pc.waitsForCommand = false

namespace JobSetting

variable {j : JobSetting} {s t : Job} {event : Event}

/-! ## The steps that are left -/

/-- A child that is still running after the event was running before it. -/
theorem running_of_collects {c d : Child} (h : Collects c d) (hd : d = .running) :
    c = .running := by
  rcases h with rfl | ⟨ending, -, rfl⟩
  · exact hd
  · cases hd

theorem ended_of_moves {p q : Parent} (hm : p.Moves event q) (hended : p.child ≠ .running) :
    q.child ≠ .running := by
  intro hrun
  have hafter := running_of_collects hm.child hrun
  cases event with
  | childEnds ending => exact hended ((hm.ended ending).1 rfl)
  | parent | limiterEnds ending | signal sig => exact hended hafter

theorem past_of_moves {p q : Parent} (hm : p.Moves event q) (h : p.Past) : q.Past :=
  h.imp (ended_of_moves hm) hm.past

/-- Without a step of the parent it stays as it is. -/
theorem parent_of_step {e : JobEvent} (hs : j.step s e = some t) :
    t.parent = s.parent ∨ ∃ event, e = .parent event ∧ s.parent.Moves event t.parent := by
  cases e with
  | parent event => exact Or.inr ⟨event, rfl, Parent.step_moves (step_parent hs).2.1⟩
  | limiter a =>
    obtain ⟨system, -, rfl⟩ := step_limiter hs
    exact Or.inl rfl
  | env event =>
    obtain ⟨-, os, -, rfl⟩ := step_env hs
    exact Or.inl rfl

/-- The exit of the limiter and the calls of the parent are the steps that count. -/
theorem limiter_steps {p q : Parent} (hm : p.Moves event q) :
    (JobEvent.parent event).isOwn.toNat + (if q.limiter = .running then 1 else 0) ≤
      (if event = .parent then 1 else 0) + if p.limiter = .running then 1 else 0 := by
  cases event with
  | limiterEnds ending =>
    have hq : q.limiter ≠ .running := fun hrun => by cases running_of_collects hm.limiter hrun
    rw [if_neg hq, if_pos ((hm.ended ending).2 rfl)]
    exact le_rfl
  | parent | childEnds ending | signal sig =>
    by_cases hq : q.limiter = .running
    · have hp : p.limiter = .running := running_of_collects hm.limiter hq
      simp [hp, hq, JobEvent.isOwn]
    · simp [hq, JobEvent.isOwn]

/-- A condition under which the limiter winds up: events that are `ok` keep it, and every
step of `limit_process` lowers a bound that the other processes do not touch. -/
structure WindsUp (j : JobSetting) (cond : Job → Prop) (ok : JobEvent → Prop)
    (left : ℕ → System → ℕ) : Prop where
  coupled : ∀ s, cond s → j.Coupled s
  step : ∀ s e t, cond s → ok e → j.step s e = some t → cond t
  own_ok : ∀ e, e.isOwn = true → ok e
  left_os : ∀ listed s os, left listed { s with os := os } = left listed s
  left_lt : ∀ listed s a t, cond s → a.listing.length ≤ listed →
    s.system.limiterStep j.limiter a = some t → left listed t < left listed s.system

variable {cond : Job → Prop} {ok : JobEvent → Prop} {left : ℕ → System → ℕ} {listed : ℕ}

/-- Every step of cpulimit counts. -/
theorem WindsUp.ownSteps_le {e : JobEvent} (h : j.WindsUp cond ok left) (hs : cond s)
    (hlisted : e.listed ≤ listed) (hstep : j.step s e = some t) :
    e.isOwn.toNat + t.ownSteps left listed ≤ s.ownSteps left listed := by
  cases e with
  | env event =>
    obtain ⟨-, os, -, rfl⟩ := step_env hstep
    simp only [JobEvent.isOwn, Bool.toNat_false, Job.ownSteps, h.left_os]
    omega
  | limiter a =>
    obtain ⟨system, hsystem, rfl⟩ := step_limiter hstep
    have hlt := h.left_lt listed s a system hs hlisted hsystem
    simp only [JobEvent.isOwn, Bool.toNat_true, Job.ownSteps]
    omega
  | parent event =>
    obtain ⟨-, hparent, os, -, hsystem⟩ := step_parent hstep
    have hm := Parent.step_moves hparent
    have hleft : left listed t.system = left listed s.system := by rw [hsystem, h.left_os]
    have hcalls := hm.calls
    have hlimiter := limiter_steps hm
    simp only [Job.ownSteps, hleft]
    omega

/-- However many events come between them, cpulimit has no more steps than the bound. -/
theorem WindsUp.steps_le (h : j.WindsUp cond ok left) (hs : cond s) {later : List JobEvent}
    (hlater : ∀ e ∈ later, e.listed ≤ listed ∧ ok e)
    (hrun : Runs.runPartial j.step s later = some t) :
    later.countP JobEvent.isOwn + t.ownSteps left listed ≤ s.ownSteps left listed := by
  have hstep : ∀ (m : Job) e m', cond m → e.listed ≤ listed ∧ ok e → j.step m e = some m' →
      cond m' ∧ e.isOwn.toNat + m'.ownSteps left listed ≤ m.ownSteps left listed :=
    fun m e m' hm he hst => ⟨h.step m e m' hm he.2 hst, h.ownSteps_le hm he.1 hst⟩
  exact Runs.countP_add_measure_le hstep hs hlater hrun

/-! ## Progress -/

theorem isReaped_of_childAfter {c : Child} (h : (event.childAfter c).isReaped = true) :
    c.isReaped = true := by
  cases event with
  | childEnds ending => cases h
  | parent | limiterEnds ending | signal sig => exact h

theorem isReaped_of_limiterAfter {c : Child} (h : (event.limiterAfter c).isReaped = true) :
    c.isReaped = true := by
  cases event with
  | limiterEnds ending => cases h
  | parent | childEnds ending | signal sig => exact h

/-- Whatever the parent does can be done to the process table: it waits only for children
that are there. -/
theorem Coupled.exists_changes {q : Parent} (h : j.Coupled s) (hm : s.parent.Moves event q)
    (hends : ∃ m, Runs.runPartial Os.envStep s.system.os (j.ends event) = some m) :
    ∃ os, Runs.runPartial Os.envStep s.system.os (j.changes s.parent event q) = some os := by
  obtain ⟨m, hends⟩ := hends
  have hnil : Runs.runPartial Os.envStep s.system.os (j.ends event ++ []) = some m := by
    rwa [List.append_nil]
  have hcommand : Shows m j.command s.parent.hasExited (event.childAfter s.parent.child) :=
    shows_changes h.command hnil (j.ends_command event _) (Or.inl rfl) (by simp) (by simp) id
  have hlimiter : Shows m j.limiter.self s.parent.hasExited
      (event.limiterAfter s.parent.limiter) :=
    shows_changes h.limiter hnil (j.ends_limiter event _) (Or.inl rfl) (by simp) (by simp) id
  obtain ⟨m1, h1⟩ := exists_reaped hcommand hm.child isReaped_of_childAfter fun he =>
    (hm.exited he).2.1
  obtain ⟨m2, h2⟩ := exists_reaped (hlimiter.of_reaps h1 j.command_ne_self.symm) hm.limiter
    isReaped_of_limiterAfter fun he => (hm.exited he).2.2
  have hexits : ∃ os, Runs.runPartial Os.envStep m2
      (if q.hasExited && !s.parent.hasExited then [.exit j.main] else []) = some os := by
    split_ifs with hexits
    · obtain ⟨-, hlive⟩ : q.hasExited = true ∧ s.parent.hasExited = false := by simpa using hexits
      have hshows : Shows s.system.os j.main false .running := h.main hlive
      have hmain : Shows m j.main false .running :=
        hshows.of_run hends (fun he => absurd (exit_mem_ends he) (by
          simp [j.main_ne_command, j.main_ne_self])) fun he => absurd he (reap_not_mem_ends _)
      have hmain2 : m2.alive j.main = true :=
        (hmain.of_reaps h1 j.main_ne_command).of_reaps h2 j.main_ne_self
      exact ⟨_, (Runs.runPartial_cons_eq_some _).mpr ⟨_, if_pos ⟨hmain2, j.main_gt⟩, rfl⟩⟩
    · exact ⟨m2, rfl⟩
  obtain ⟨os, hos⟩ := hexits
  refine ⟨os, (Runs.runPartial_append_eq_some _).mpr ⟨m, hends, ?_⟩⟩
  refine (Runs.runPartial_append_eq_some _).mpr ⟨m1, h1, ?_⟩
  exact (Runs.runPartial_append_eq_some _).mpr ⟨m2, h2, hos⟩

/-- An event that is possible for the parent is possible for the job. -/
theorem Coupled.exists_parent {q : Parent} (h : j.Coupled s) (hdue : Due s event)
    (hparent : s.parent.step event = some q)
    (hends : ∃ m, Runs.runPartial Os.envStep s.system.os (j.ends event) = some m) :
    ∃ t, j.step s (.parent event) = some t := by
  obtain ⟨os, hos⟩ := h.exists_changes (Parent.step_moves hparent) hends
  exact ⟨⟨q, { s.system with os := os }⟩, by simp [JobSetting.step, hdue, hparent, hos]⟩

/-- Unless the parent waits for a running command, both processes of cpulimit have ended, or
one of them can take a step. -/
theorem Coupled.exists_own (h : j.Coupled s) (hpast : s.parent.Past) :
    (∃ code, s.Over code) ∨ ∃ e t, e.isOwn = true ∧
      e.listed ≤ s.system.os.procs.length ∧ j.step s e = some t := by
  by_cases hlimiter : s.parent.limiter = .running
  · by_cases hpc : s.system.pc = .returned
    · have halive : s.system.os.alive j.limiter.self = true := by
        have hshows := h.limiter
        rwa [hlimiter] at hshows
      have hparent : s.parent.step (.limiterEnds exitSuccess) =
          some (s.parent.limiterEnds exitSuccess) := if_pos hlimiter
      have hdue : Due s (.limiterEnds exitSuccess) := ⟨hpc, rfl⟩
      obtain ⟨t, ht⟩ := h.exists_parent hdue hparent
        ⟨_, (Runs.runPartial_cons_eq_some _).mpr ⟨_, if_pos ⟨halive, j.self_gt⟩, rfl⟩⟩
      exact Or.inr ⟨_, t, rfl, Nat.zero_le _, ht⟩
    · obtain ⟨a, system, hlisted, hstep⟩ := System.exists_step j.limiter h.planted.tree hpc
      exact Or.inr ⟨.limiter a, _, rfl, hlisted, Option.map_eq_some_iff.mpr ⟨system, hstep, rfl⟩⟩
  · have hparent : (∃ code, s.parent.pc = .exited code) ∨
        ∃ q, s.parent.step .parent = some q := by
      cases hpc : s.parent.pc with
      | blockedOnChild =>
        rw [Parent.Past, hpc] at hpast
        exact absurd (h.blocks.child hpc) (hpast.resolve_right nofun)
      | blockedOnLimiter => exact absurd (h.blocks.limiter hpc) hlimiter
      | exited code => exact Or.inl ⟨code, rfl⟩
      | waitChild | waitLimiter | report =>
        simp only [Parent.step, Parent.parentStep, hpc]
        exact Or.inr ⟨_, rfl⟩
    rcases hparent with ⟨code, hpc⟩ | ⟨q, hq⟩
    · exact Or.inl ⟨code, hpc, hlimiter, h.returned hlimiter⟩
    · have hdue : Due s .parent := trivial
      obtain ⟨t, ht⟩ := h.exists_parent hdue hq ⟨_, rfl⟩
      exact Or.inr ⟨_, t, rfl, Nat.zero_le _, ht⟩

theorem length_of_envStep {os os' : Os} {e : Os.EnvEvent} (hforks : ∀ pid, ¬ e.Forks pid)
    (hs : os.envStep e = some os') : os'.procs.length ≤ os.procs.length := by
  cases e with
  | fork parent child startTime permitted =>
    have hfork : (Os.EnvEvent.fork parent child startTime permitted).Forks child := rfl
    exact absurd hfork (hforks child)
  | exit gone =>
    simp only [Os.envStep] at hs
    split_ifs at hs
    cases hs
    exact (List.length_map _).le
  | reap gone =>
    simp only [Os.envStep] at hs
    split_ifs at hs
    cases hs
    exact List.length_filter_le _ _
  | setReadable target readable => cases hs; exact (List.length_map _).le
  | setStartReadable target readable => cases hs; exact (List.length_map _).le
  | recover => cases hs; exact (List.length_map _).le
  | setProcOpens opens => cases hs; exact le_rfl
  | quit => cases hs; exact le_rfl

/-- cpulimit forks no more. -/
theorem Coupled.length_le {e : JobEvent} (h : j.Coupled s) (hown : e.isOwn = true)
    (hs : j.step s e = some t) : t.system.os.procs.length ≤ s.system.os.procs.length := by
  cases e with
  | parent event =>
    obtain ⟨-, -, os, hrun, hsystem⟩ := step_parent hs
    rw [hsystem]
    have hstep : ∀ (m : Os) e m', m.procs.length ≤ s.system.os.procs.length →
        (∀ pid, ¬ e.Forks pid) → m.envStep e = some m' →
          m'.procs.length ≤ s.system.os.procs.length :=
      fun _ _ _ hm hforks hs => (length_of_envStep hforks hs).trans hm
    exact Runs.runPartial_invariant_of_forall hstep le_rfl
      (fun e he => not_forks_of_mem_changes he) hrun
  | limiter a =>
    obtain ⟨system, hsystem, rfl⟩ := step_limiter hs
    exact (System.os_of_limiterStep h.planted.grounded hsystem).2.1.le
  | env event => cases hown

theorem not_reuses_of_isOwn {e : JobEvent} (h : e.isOwn = true) (pid : Pid) : ¬ e.Reuses pid := by
  cases e with
  | parent event => exact id
  | limiter a => exact id
  | env event => cases h

/-- cpulimit gets to the end alone. What its steps keep of the parent holds there. -/
theorem WindsUp.ends_alone (h : j.WindsUp cond ok left) (hs : cond s) (hpast : s.parent.Past)
    (keep : Parent → Prop) (hkeeps : keep s.parent) (hkeep : ∀ (m : Job) e t, keep m.parent →
      e.isOwn = true → j.step m e = some t → keep t.parent) :
    ∃ rest u code, (∀ e ∈ rest, e.isOwn = true) ∧ Runs.runPartial j.step s rest = some u ∧
      u.Over code ∧ keep u.parent := by
  let inv : Job → Prop := fun m => (cond m ∧ m.parent.Past) ∧
    m.system.os.procs.length ≤ s.system.os.procs.length ∧ keep m.parent
  have hprogress : ∀ m, inv m → ((∃ code, m.Over code) ∧ keep m.parent) ∨
      ∃ e t, e.isOwn = true ∧ j.step m e = some t ∧ inv t ∧
        t.ownSteps left s.system.os.procs.length < m.ownSteps left s.system.os.procs.length := by
    rintro m ⟨⟨hm, hmpast⟩, hlength, hmkeep⟩
    have hcoupled := h.coupled m hm
    rcases hcoupled.exists_own hmpast with hover | ⟨e, t, hown, hlisted, hstep⟩
    · exact Or.inl ⟨hover, hmkeep⟩
    · have hlt := h.ownSteps_le hm (hlisted.trans hlength) hstep
      rw [hown, Bool.toNat_true] at hlt
      have htpast : t.parent.Past := by
        rcases parent_of_step hstep with hsame | ⟨event, -, hmoves⟩
        · rwa [hsame]
        · exact past_of_moves hmoves hmpast
      exact Or.inr ⟨e, t, hown, hstep, ⟨⟨h.step m e t hm (h.own_ok e hown) hstep, htpast⟩,
        (hcoupled.length_le hown hstep).trans hlength, hkeep m e t hmkeep hown hstep⟩, by omega⟩
  obtain ⟨rest, u, hown, hrun, ⟨code, hover⟩, hukeep⟩ :=
    Runs.exists_run_to_final hprogress ⟨⟨hs, hpast⟩, le_rfl, hkeeps⟩
  exact ⟨rest, u, code, hown, hrun, hover, hukeep⟩

/-! ## Two ways to the end -/

/-- What holds after the end of the command. -/
structure Bereft (j : JobSetting) (s : Job) : Prop where
  coupled : j.Coupled s
  gone : j.Gone s
  ended : s.parent.child ≠ .running

/-- What holds after `quit_flag` is set in the limiter. -/
structure Dismissed (j : JobSetting) (s : Job) : Prop where
  coupled : j.Coupled s
  quit : s.system.os.quitFlag = true

theorem Bereft.orphaned (h : j.Bereft s) : s.system.Orphaned :=
  ⟨h.coupled.planted, h.coupled.target ▸ j.command_gt, by
    rw [h.coupled.target]
    exact h.gone h.ended⟩

theorem bereft_windsUp (j : JobSetting) :
    j.WindsUp j.Bereft (fun e => ¬ e.Reuses j.command) System.stepsAfterExit where
  coupled _ h := h.coupled
  step s e t h he hs := by
    refine ⟨h.coupled.step hs, h.gone.step h.coupled he hs, ?_⟩
    rcases parent_of_step hs with hsame | ⟨event, -, hm⟩
    · rw [hsame]
      exact h.ended
    · exact ended_of_moves hm h.ended
  own_ok e he := not_reuses_of_isOwn he _
  left_os _ _ _ := rfl
  left_lt _ _ _ _ h hlisted hs := h.orphaned.stepsAfterExit_lt hlisted hs

theorem quitFlag_of_step {e : JobEvent} (h : j.Coupled s) (hquit : s.system.os.quitFlag = true)
    (hs : j.step s e = some t) : t.system.os.quitFlag = true := by
  cases e with
  | parent event =>
    obtain ⟨-, -, os, hrun, hsystem⟩ := step_parent hs
    rw [hsystem]
    exact Runs.runPartial_invariant (fun _ _ _ hq hs => (Os.envStep_spec hs).2.1 hq) hquit hrun
  | limiter a =>
    obtain ⟨system, hsystem, rfl⟩ := step_limiter hs
    exact (System.os_of_limiterStep h.planted.grounded hsystem).1.trans hquit
  | env event =>
    obtain ⟨-, os, hos, rfl⟩ := step_env hs
    exact (Os.envStep_spec hos).2.1 hquit

theorem dismissed_windsUp (j : JobSetting) :
    j.WindsUp j.Dismissed (fun _ => True) fun listed m => m.view.stepsLeft listed where
  coupled _ h := h.coupled
  step _ _ _ h _ hs := ⟨h.coupled.step hs, quitFlag_of_step h.coupled h.quit hs⟩
  own_ok _ _ := trivial
  left_os _ _ _ := rfl
  left_lt _ _ a _ h hlisted hs := by
    have hquitting : System.Quitting _ := ⟨h.coupled.planted, h.quit⟩
    exact hquitting.stepsLeft_lt hlisted hs

theorem not_past_iff {p : Parent} :
    ¬ p.Past ↔ p.child = .running ∧ p.pc.waitsForCommand = true := by
  simp [Parent.Past]

theorem not_past_of_parentStep {p q : Parent} (h : ¬ p.Past) (hs : p.parentStep = some q) :
    ¬ q.Past := by
  obtain ⟨hchild, hwaits⟩ := not_past_iff.mp h
  cases hpc : p.pc with
  | waitChild =>
    simp only [Parent.parentStep, hpc, Parent.callChild, hchild, waitpid, Option.some.injEq] at hs
    subst hs
    exact not_past_iff.mpr ⟨rfl, rfl⟩
  | blockedOnChild => simp [Parent.parentStep, hpc] at hs
  | waitLimiter | blockedOnLimiter | report | exited code =>
    rw [hpc] at hwaits
    cases hwaits

theorem not_past_of_limiterEnds {p : Parent} (h : ¬ p.Past) (ending : Ending) :
    ¬ (p.limiterEnds ending).Past := by
  obtain ⟨hchild, hwaits⟩ := not_past_iff.mp h
  have hpc : p.pc ≠ .blockedOnLimiter := by
    intro hpc
    rw [hpc] at hwaits
    cases hwaits
  rw [Parent.limiterEnds, if_neg hpc]
  exact not_past_iff.mpr ⟨hchild, hwaits⟩

/-- A parent that waits for a running command goes on waiting while only cpulimit takes
steps. -/
theorem not_past_of_own {e : JobEvent} (h : ¬ s.parent.Past) (hown : e.isOwn = true)
    (hs : j.step s e = some t) : ¬ t.parent.Past := by
  cases e with
  | limiter a =>
    obtain ⟨system, -, rfl⟩ := step_limiter hs
    exact h
  | env event => cases hown
  | parent event =>
    obtain ⟨-, hparent, -⟩ := step_parent hs
    cases event with
    | childEnds ending | signal sig => cases hown
    | parent => exact not_past_of_parentStep h hparent
    | limiterEnds ending =>
      simp only [Parent.step] at hparent
      split_ifs at hparent
      rw [← Option.some.inj hparent]
      exact not_past_of_limiterEnds h ending

/-! ## The waits -/

/-- A wait is missed when a signal falls into it, and in no other way. -/
theorem step_waited {e : JobEvent} (h : s.parent.Waited) (hs : j.step s e = some t) :
    ¬ s.Interrupts e ∧ t.parent.Waited ∨ ¬ ¬ s.Interrupts e ∧ t.parent.Missed := by
  cases e with
  | parent event => exact Parent.step_waited h (step_parent hs).2.1
  | limiter a =>
    obtain ⟨system, -, rfl⟩ := step_limiter hs
    exact Or.inl ⟨id, h⟩
  | env event =>
    obtain ⟨-, os, -, rfl⟩ := step_env hs
    exact Or.inl ⟨id, h⟩

theorem step_missed {e : JobEvent} (h : s.parent.Missed) (hs : j.step s e = some t) :
    t.parent.Missed := by
  cases e with
  | parent event => exact Parent.step_missed h (step_parent hs).2.1
  | limiter a =>
    obtain ⟨system, -, rfl⟩ := step_limiter hs
    exact h
  | env event =>
    obtain ⟨-, os, -, rfl⟩ := step_env hs
    exact h

theorem not_interrupts_of_isOwn {e : JobEvent} (h : e.isOwn = true) (s : Job) :
    ¬ s.Interrupts e := by
  cases e with
  | parent event =>
    cases event with
    | parent | limiterEnds ending => exact id
    | childEnds ending | signal sig => cases h
  | limiter a => exact id
  | env event => cases h

end JobSetting

/-! ## The results -/

/-- After the command has terminated, and as long as no other process gets its `pid`, the two
processes of cpulimit take at most `ownSteps` further steps, however many events come
between them; and both can go on to their end. The parent then exits with the status of a
command that exited if and only if no signal has interrupted one of its waits. -/
theorem both_end_after_command (j : JobSetting) {os : Os} (htree : os.Tree)
    (hmain : os.alive j.main = true) (hcommand : os.alive j.command = true)
    (hself : os.alive j.limiter.self = true) (includeChildren : Bool) (now : Timespec)
    (timeSlot : ℚ) (statusProcess statusLimiter : ℤ) {events : List JobEvent} {s : Job}
    (hrun : Runs.runPartial j.step
      (j.start os includeChildren now timeSlot statusProcess statusLimiter) events = some s)
    (hreuse : ∀ e ∈ events, ¬ e.Reuses j.command) (hended : s.parent.child ≠ .running) :
    (∀ listed later t, (∀ e ∈ later, e.listed ≤ listed ∧ ¬ e.Reuses j.command) →
      Runs.runPartial j.step s later = some t →
        later.countP JobEvent.isOwn + t.ownSteps System.stepsAfterExit listed ≤
          s.ownSteps System.stepsAfterExit listed) ∧
    ∃ rest u code, (∀ e ∈ rest, e.isOwn = true) ∧ Runs.runPartial j.step s rest = some u ∧
      u.Over code ∧ (u.parent.ReportsCommand code ↔
        Runs.AlongPartial j.step (fun s e _ => ¬ s.Interrupts e)
          (j.start os includeChildren now timeSlot statusProcess statusLimiter) events) := by
  have hstart := j.start_coupled htree hmain hcommand hself includeChildren now timeSlot
    statusProcess statusLimiter
  have hstep : ∀ s e t, j.Coupled s ∧ j.Gone s → ¬ e.Reuses j.command → j.step s e = some t →
      j.Coupled t ∧ j.Gone t := fun _ _ _ h he hs => ⟨h.1.step hs, h.2.step h.1 he hs⟩
  obtain ⟨hcoupled, hgone⟩ := Runs.runPartial_invariant_of_forall hstep
    ⟨hstart, fun hstartEnded => absurd rfl hstartEnded⟩ hreuse hrun
  have hs : j.Bereft s := ⟨hcoupled, hgone, hended⟩
  have hwinds := j.bereft_windsUp
  refine ⟨fun listed later t => hwinds.steps_le hs, ?_⟩
  -- whether a wait has been missed shows in the parent, and cpulimit alone changes it no more
  have hfirst : Parent.Waited
      (j.start os includeChildren now timeSlot statusProcess statusLimiter).parent :=
    ⟨not_reaped_running, not_reaped_running⟩
  have hwaits := Runs.runPartial_dichotomy (fun _ _ _ => JobSetting.step_waited)
    (fun _ _ _ => JobSetting.step_missed) hfirst hrun
  rcases hwaits with ⟨halong, hwaited⟩ | ⟨halong, hmissed⟩
  · obtain ⟨rest, u, code, hown, hrest, hover, hu⟩ :=
      hwinds.ends_alone hs (Or.inl hended) Parent.Waited hwaited fun m e t hm he hmt =>
        ((JobSetting.step_waited hm hmt).resolve_right
          (not_not.mpr (JobSetting.not_interrupts_of_isOwn he m) ·.1)).2
    exact ⟨rest, u, code, hown, hrest, hover,
      iff_of_true (Parent.reportsCommand_of_waited hu hover.exited) halong⟩
  · obtain ⟨rest, u, code, hown, hrest, hover, hu⟩ :=
      hwinds.ends_alone hs (Or.inl hended) Parent.Missed hmissed fun _ _ _ hm _ hmt =>
        JobSetting.step_missed hm hmt
    exact ⟨rest, u, code, hown, hrest, hover,
      iff_of_false (Parent.not_reportsCommand_of_missed hu hover.exited) halong⟩

/-- Process 20 has forked the command 21 and the limiter 22. -/
def familyJob : JobSetting where
  limiter := familySetting
  main := 20
  command := 21
  main_gt := by decide
  command_gt := by decide
  self_gt := by decide
  main_ne_command := by decide
  main_ne_self := by decide
  command_ne_self := by decide

/-- A step of the limiter at clock reading `ms`, in milliseconds. -/
def limiterTick (ms : ℤ) : JobEvent := .limiter ⟨⟨0, ms * 1000000⟩, [], 0, 0, ['s', 'h'], none⟩

/-- The parent waits, and the command exits with 255 in the first work slice. -/
def commandEvents : List JobEvent :=
  .parent .parent :: (List.replicate 4 (limiterTick 0) ++ List.replicate 8 (limiterTick 1)) ++
    [.parent (.childEnds (.exited (Fin.last 255)))]

/-- The limiter finishes its cycle, finds nobody and terminates, and the parent exits. -/
def lastEvents : List JobEvent :=
  .parent .parent :: List.replicate 10 (limiterTick 101) ++
    [.parent (.limiterEnds exitSuccess), .parent .parent]

/-- Of the 18 steps that cpulimit may take after the end of the command it takes 13. -/
theorem both_end_after_command_family :
    ∃ s t, Runs.runPartial familyJob.step
        (familyJob.start familyOs false ⟨0, 0⟩ timeSlotBase 0 0) commandEvents = some s ∧
      Runs.runPartial familyJob.step s lastEvents = some t ∧ t.parent.pc = .exited 255 ∧
      s.ownSteps System.stepsAfterExit 0 = 18 ∧
      13 + t.ownSteps System.stepsAfterExit 0 ≤ 18 ∧
      ∃ rest u code, Runs.runPartial familyJob.step s rest = some u ∧ u.Over code ∧
        u.parent.ReportsCommand code := by
  have htree : familyOs.Tree := Os.tree_of_procs (by decide) (by decide)
  have hfirst : (Runs.runPartial familyJob.step
      (familyJob.start familyOs false ⟨0, 0⟩ timeSlotBase 0 0) commandEvents).map
        (fun s => (s.parent.child.isReaped, s.ownSteps System.stepsAfterExit 0)) =
          some (true, 18) := by
    decide +kernel
  obtain ⟨s, hs, hsteps⟩ := Option.map_eq_some_iff.mp hfirst
  obtain ⟨hchild, hleft⟩ := Prod.mk.inj hsteps
  have hall : (Runs.runPartial familyJob.step
      (familyJob.start familyOs false ⟨0, 0⟩ timeSlotBase 0 0) (commandEvents ++ lastEvents)).map
        (fun t => t.parent.pc) = some (.exited 255) := by
    decide +kernel
  obtain ⟨t, hall, hpc⟩ := Option.map_eq_some_iff.mp hall
  obtain ⟨m, hm, ht⟩ := (Runs.runPartial_append_eq_some _).mp hall
  cases hs.symm.trans hm
  have hreuse : ∀ e ∈ commandEvents ++ lastEvents, e.listed ≤ 0 ∧ ¬ e.Reuses 21 := by
    simp [commandEvents, lastEvents, limiterTick, JobEvent.listed, JobEvent.Reuses]
  have hended : s.parent.child ≠ .running := by
    intro hrunning
    rw [hrunning] at hchild
    cases hchild
  have hquiet : Runs.AlongPartial familyJob.step (fun s e _ => ¬ s.Interrupts e)
      (familyJob.start familyOs false ⟨0, 0⟩ timeSlotBase 0 0) commandEvents := by
    decide +kernel
  obtain ⟨hbound, rest, u, code, -, hrest, hover, hreports⟩ :=
    both_end_after_command familyJob htree (by decide) (by decide) (by decide) false ⟨0, 0⟩
      timeSlotBase 0 0 hs (fun e he => (hreuse e (List.mem_append_left _ he)).2) hended
  have hcount := hbound 0 _ t (fun e he => hreuse e (List.mem_append_right _ he)) ht
  rw [hleft] at hcount
  exact ⟨s, t, hs, ht, hpc, hleft, hcount, rest, u, code, hrest, hover, hreports.mpr hquiet⟩

/-- After `quit_flag` is set in the limiter, the two processes of cpulimit take at most
`ownSteps` further steps, whatever the command and the other processes do; and they can go on
to their end if and only if the parent does not wait for a running command. A signal that
reaches the parent before its `waitpid` is such a case: it goes unnoticed. -/
theorem both_end_after_quit (j : JobSetting) {os : Os} (htree : os.Tree)
    (hmain : os.alive j.main = true) (hcommand : os.alive j.command = true)
    (hself : os.alive j.limiter.self = true) (includeChildren : Bool) (now : Timespec)
    (timeSlot : ℚ) (statusProcess statusLimiter : ℤ) {events : List JobEvent} {s : Job}
    (hrun : Runs.runPartial j.step
      (j.start os includeChildren now timeSlot statusProcess statusLimiter) events = some s)
    (hquit : s.system.os.quitFlag = true) :
    (∀ listed later t, (∀ e ∈ later, e.listed ≤ listed) →
      Runs.runPartial j.step s later = some t →
        later.countP JobEvent.isOwn + t.ownSteps (fun n m => m.view.stepsLeft n) listed ≤
          s.ownSteps (fun n m => m.view.stepsLeft n) listed) ∧
    ((∃ rest u code, (∀ e ∈ rest, e.isOwn = true) ∧ Runs.runPartial j.step s rest = some u ∧
      u.Over code) ↔ s.parent.child ≠ .running ∨ s.parent.pc.waitsForCommand = false) := by
  have hstart := j.start_coupled htree hmain hcommand hself includeChildren now timeSlot
    statusProcess statusLimiter
  have hs : j.Dismissed s :=
    ⟨Runs.runPartial_invariant (fun _ _ _ h hs => h.step hs) hstart hrun, hquit⟩
  have hwinds := j.dismissed_windsUp
  refine ⟨fun listed later t hlater => hwinds.steps_le hs fun e he => ⟨hlater e he, trivial⟩,
    ?_, fun hpast => ?_⟩
  · rintro ⟨rest, u, code, hown, hrest, hover⟩
    by_contra hwaits
    have hend : ¬ u.parent.Past := Runs.runPartial_invariant_of_forall
      (fun _ _ _ => JobSetting.not_past_of_own) hwaits hown hrest
    exact hend (Or.inr (by rw [hover.exited]; rfl))
  · obtain ⟨rest, u, code, hown, hrest, hover, -⟩ :=
      hwinds.ends_alone hs hpast (fun _ => True) trivial fun _ _ _ _ _ _ => trivial
    exact ⟨rest, u, code, hown, hrest, hover⟩

/-- A signal from the terminal reaches the parent in its first wait, and the limiter in the
first work slice. -/
def interruptEvents : List JobEvent :=
  .parent .parent :: (List.replicate 4 (limiterTick 0) ++ List.replicate 8 (limiterTick 1)) ++
    [.parent (.signal .sigint), .env .quit]

/-- The limiter finishes its cycle, resumes the command and terminates. -/
def windUpEvents : List JobEvent :=
  .parent .parent :: List.replicate 7 (limiterTick 101) ++
    [.parent (.limiterEnds exitSuccess), .parent .parent]

/-- cpulimit ends after all of the 10 steps that it may take, and the command runs on. -/
theorem both_end_after_quit_family :
    ∃ s t, Runs.runPartial familyJob.step
        (familyJob.start familyOs false ⟨0, 0⟩ timeSlotBase 0 0) interruptEvents = some s ∧
      Runs.runPartial familyJob.step s windUpEvents = some t ∧
      t.parent.hasExited = true ∧ t.parent.child = .running ∧
      s.ownSteps (fun n m => m.view.stepsLeft n) 0 = 10 ∧
      10 + t.ownSteps (fun n m => m.view.stepsLeft n) 0 ≤ 10 ∧
      ∃ rest u code, Runs.runPartial familyJob.step s rest = some u ∧ u.Over code := by
  have htree : familyOs.Tree := Os.tree_of_procs (by decide) (by decide)
  have hfirst : (Runs.runPartial familyJob.step
      (familyJob.start familyOs false ⟨0, 0⟩ timeSlotBase 0 0) interruptEvents).map
        (fun s => (s.system.os.quitFlag, s.parent.pc.waitsForCommand,
          s.ownSteps (fun n m => m.view.stepsLeft n) 0)) = some (true, false, 10) := by
    decide +kernel
  obtain ⟨s, hs, hsteps⟩ := Option.map_eq_some_iff.mp hfirst
  obtain ⟨hquit, hsteps⟩ := Prod.mk.inj hsteps
  obtain ⟨hpast, hleft⟩ := Prod.mk.inj hsteps
  have hall : (Runs.runPartial familyJob.step
      (familyJob.start familyOs false ⟨0, 0⟩ timeSlotBase 0 0)
        (interruptEvents ++ windUpEvents)).map
          (fun t => (t.parent.hasExited, t.parent.child)) = some (true, .running) := by
    decide +kernel
  obtain ⟨t, hall, hend⟩ := Option.map_eq_some_iff.mp hall
  obtain ⟨hexited, hchild⟩ := Prod.mk.inj hend
  obtain ⟨m, hm, ht⟩ := (Runs.runPartial_append_eq_some _).mp hall
  cases hs.symm.trans hm
  have hlisted : ∀ e ∈ windUpEvents, e.listed ≤ 0 := by
    simp [windUpEvents, limiterTick, JobEvent.listed]
  obtain ⟨hbound, hends⟩ := both_end_after_quit familyJob htree (by decide) (by decide) (by decide)
    false ⟨0, 0⟩ timeSlotBase 0 0 hs hquit
  have hcount := hbound 0 _ t hlisted ht
  rw [hleft] at hcount
  obtain ⟨rest, u, code, -, hrest, hover⟩ := hends.mpr (Or.inr hpast)
  exact ⟨s, t, hs, ht, hexited, hchild, hleft, hcount, rest, u, code, hrest, hover⟩

end CpuLimit.CommandMode
