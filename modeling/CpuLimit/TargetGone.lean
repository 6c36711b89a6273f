import CpuLimit.Termination

/-!
# The end of the target

Once the target has exited, and as long as no other process gets its `pid`, every later
scan finds nobody: without children only the target is read, and with them nobody is below
a process that does not live. So the limiter has a bounded number of steps left: it
finishes the cycle that it is in, scans once more and returns.
-/
namespace CpuLimit

open Library

namespace Os

variable {os os' : Os}

/-- A process that is not alive cannot be read. -/
theorem readProcessInfo_of_not_alive {pid : Pid} (h : os.alive pid = false) (cputime : ℚ)
    (command : List Char) : os.readProcessInfo pid cputime command = none := by
  unfold readProcessInfo
  cases hp : os.proc pid with
  | none => rfl
  | some p =>
    have hz : p.zombie = true := by
      by_contra hz
      rw [alive_iff.mpr ⟨p, hp, Bool.not_eq_true _ ▸ hz⟩] at h
      cases h
    exact if_pos (Or.inr hz)

/-- Nobody is below a process that is not alive. -/
theorem pid_of_passes (hr : os.Rooted) {filter : ProcessFilter} (hgt : 1 < filter.pid)
    (hdead : os.alive filter.pid = false) (hall : ¬ readsOne filter) {fuel : ℕ} {pid : Pid}
    (h : os.passes fuel filter pid = some true) : pid = filter.pid := by
  by_contra hne
  have hzero : filter.pid ≠ 0 := (lt_trans zero_lt_one hgt).ne'
  rw [passes, if_neg hall] at h
  by_cases hpid : pid ≤ 0
  · rw [if_pos hpid] at h
    cases h
  rw [if_neg hpid, if_pos ⟨hzero, Ne.symm hne⟩] at h
  rcases isChildOf_sound h with hone | hanc
  · exact absurd hone hgt.ne'
  · rcases alive_of_ancestor hr hanc with hle | halive
    · exact absurd hgt (not_lt.mpr hle)
    · rw [hdead] at halive
      cases halive

/-- A process with the `pid` is forked. -/
def EnvEvent.Forks (pid : Pid) : EnvEvent → Prop
  | .fork _ child _ _ => child = pid
  | _ => False

theorem alive_of_envStep {event : EnvEvent} (h : os.envStep event = some os') {pid : Pid}
    (hfork : ¬ event.Forks pid) (ha : os'.alive pid = true) : os.alive pid = true := by
  obtain ⟨p', hp', hz⟩ := alive_iff.mp ha
  rcases envStep_back h hp' with ⟨p, hp, hkeeps⟩ | ⟨-, parent, startTime, permitted, rfl, -⟩
  · refine alive_iff.mpr ⟨p, hp, ?_⟩
    by_contra hpz
    rw [hkeeps.zombie (Bool.not_eq_false _ ▸ hpz)] at hz
    cases hz
  · exact absurd rfl hfork

theorem not_alive_of_envStep {event : EnvEvent} {pid : Pid} (ha : os.alive pid = false)
    (hfork : ¬ event.Forks pid) (h : os.envStep event = some os') : os'.alive pid = false := by
  by_contra halive
  have hold := alive_of_envStep h hfork (Bool.not_eq_false _ ▸ halive)
  rw [ha] at hold
  cases hold

end Os

/-- The event gives the `pid` to a new process. -/
def Event.Reuses (pid : Pid) : Event → Prop
  | .env event => event.Forks pid
  | .limiter _ => False

/-! ## A scan that finds nobody -/

namespace System

variable {c : Setting} {s t : System} {e : Event} {a : Answer} {listed : ℕ}

/-- The scan of a cycle has found nobody so far, or it has not begun. -/
def findsNobody (s : System) : Bool :=
  s.inLoop &&
    match s.pc with
    | .beginUpdate | .returned => true
    | .scanning _ _ | .control | .afterLoop | .resume _ => s.group.proclist.isEmpty
    | .reading _ pid _ => s.group.proclist.isEmpty && decide (pid = s.group.targetPid)
    | .loopHead | .contPass _ | .work | .stopPass _ => false

/-- The steps of a scan that finds nobody, up to the return. -/
def lastSteps (listed : ℕ) (s : System) : ℕ :=
  match s.pc with
  | .beginUpdate => 2 * (listed + 1) + 5
  | .scanning _ entries => 2 * entries.length + 4
  | .reading _ _ entries => 2 * entries.length + 5
  | .control => 3
  | .afterLoop => 2
  | .resume _ => 1
  | .loopHead | .contPass _ | .work | .stopPass _ | .returned => 0

/-- A bound on the steps of the limiter after the end of its target, when no directory
that it opens has more than `listed` entries: those of the current cycle, and those of
one more scan. -/
def stepsAfterExit (listed : ℕ) (s : System) : ℕ :=
  if s.findsNobody then s.lastSteps listed
  else s.view.stepsLeft listed + (2 * (listed + 1) + 6)

/-- What holds after the end of the target. -/
structure Orphaned (s : System) : Prop extends s.Planted where
  target_gt : 1 < s.group.targetPid
  dead : s.os.alive s.group.targetPid = false

theorem lastSteps_le (listed : ℕ) (s : System) : s.lastSteps listed ≤ s.view.stepsLeft listed := by
  cases hpc : s.pc <;> simp only [lastSteps, View.stepsLeft, view, hpc] <;> omega

/-- A step of the last scan, which is again a scan that finds nobody. -/
theorem Orphaned.lastSteps_lt (h : s.Orphaned) (hnobody : s.findsNobody = true)
    (hlisted : a.listing.length ≤ listed) (hs : s.limiterStep c a = some t) :
    t.findsNobody = true ∧ t.lastSteps listed < s.lastSteps listed := by
  unfold findsNobody at hnobody
  obtain ⟨hloop, hnobody⟩ := Bool.and_eq_true_iff.mp hnobody
  cases hpc : s.pc with
  | beginUpdate =>
    simp only [limiterStep, hpc, Option.map_eq_some_iff] at hs
    obtain ⟨entries, hopen, rfl⟩ := hs
    have hlength := Os.length_of_opened hopen
    refine ⟨by simp [findsNobody, hloop, ProcessGroup.clearMembers], ?_⟩
    simp only [lastSteps, hpc]
    omega
  | scanning now entries =>
    simp only [hpc] at hnobody
    cases entries with
    | nil =>
      simp only [limiterStep, hpc, hloop, if_true, Option.some.injEq] at hs
      subst hs
      refine ⟨by simpa [findsNobody, hloop] using hnobody, ?_⟩
      simp only [lastSteps, hpc]
      omega
    | cons pid entries =>
      simp only [limiterStep, hpc, Option.map_eq_some_iff] at hs
      obtain ⟨ok, hpass, rfl⟩ := hs
      cases ok with
      | false =>
        refine ⟨by simpa [findsNobody, hloop] using hnobody, ?_⟩
        simp only [lastSteps, hpc, List.length_cons, Bool.false_eq_true, if_false]
        omega
      | true =>
        have hpid : pid = s.group.targetPid := by
          by_cases hone : Os.readsOne s.filter
          · exact h.grounded.only hone pid (by simp [candidates, hpc, Pc.pending])
          · exact Os.pid_of_passes h.tree.rooted h.target_gt h.dead hone hpass
        refine ⟨by simpa [findsNobody, hloop, hpid] using hnobody, ?_⟩
        simp only [lastSteps, hpc, List.length_cons, if_true]
        omega
  | reading now pid entries =>
    simp only [hpc, Bool.and_eq_true, decide_eq_true_eq] at hnobody
    obtain ⟨hempty, rfl⟩ := hnobody
    simp only [limiterStep, hpc, Os.readProcessInfo_of_not_alive h.dead,
      Option.some.injEq] at hs
    subst hs
    refine ⟨by simpa [findsNobody, hloop] using hempty, ?_⟩
    simp only [lastSteps, hpc]
    omega
  | control =>
    simp only [hpc] at hnobody
    have hlength : s.group.proclist.length = 0 := by simpa using hnobody
    simp only [limiterStep, hpc, hlength, if_true, Option.some.injEq] at hs
    subst hs
    refine ⟨by simpa [findsNobody, hloop] using hnobody, ?_⟩
    simp only [lastSteps, hpc]
    omega
  | afterLoop =>
    simp only [hpc] at hnobody
    simp only [limiterStep, hpc, Option.some.injEq] at hs
    subst hs
    cases s.os.quitFlag with
    | false => exact ⟨by simp [findsNobody, hloop], by simp [lastSteps, hpc]⟩
    | true =>
      exact ⟨by simpa [findsNobody, hloop] using hnobody, by simp [lastSteps, hpc]⟩
  | resume node =>
    simp only [hpc] at hnobody
    have hnil : s.group.proclist = [] := by simpa using hnobody
    simp only [limiterStep, hpc, resumeStep, hnil, List.getElem?_nil, Option.some.injEq] at hs
    subst hs
    exact ⟨by simp [findsNobody, hloop], by simp [lastSteps, hpc]⟩
  | returned => simp [limiterStep, hpc] at hs
  | loopHead | contPass node | work | stopPass node => simp [hpc] at hnobody

/-- Any other step lowers the bound, or is the beginning of the last scan. -/
theorem Orphaned.stepsAfterExit_lt (h : s.Orphaned) (hlisted : a.listing.length ≤ listed)
    (hs : s.limiterStep c a = some t) : t.stepsAfterExit listed < s.stepsAfterExit listed := by
  by_cases hnobody : s.findsNobody = true
  · obtain ⟨hnext, hlt⟩ := h.lastSteps_lt hnobody hlisted hs
    rw [stepsAfterExit, stepsAfterExit, if_pos hnobody, if_pos hnext]
    exact hlt
  · have hle : t.stepsAfterExit listed ≤ t.view.stepsLeft listed + (2 * (listed + 1) + 6) := by
      unfold stepsAfterExit
      split_ifs
      · exact (lastSteps_le listed t).trans (Nat.le_add_right _ _)
      · exact le_rfl
    rw [show s.stepsAfterExit listed = s.view.stepsLeft listed + (2 * (listed + 1) + 6) from
      if_neg hnobody]
    by_cases hpc : s.pc = .loopHead
    · simp only [limiterStep, hpc, Option.some.injEq] at hs
      subst hs
      by_cases hquit : s.os.quitFlag = true
      · refine hle.trans_lt ?_
        rw [if_pos hquit]
        simp only [View.stepsLeft, view, hpc]
        omega
      · rw [if_neg hquit]
        simp only [stepsAfterExit, findsNobody, lastSteps, View.stepsLeft, view, hpc,
          Bool.true_and, if_true]
        omega
    · have hstep : s.step c (.limiter a) = some t := hs
      have hlt := (step_move h.grounded hstep).1.stepsLeft_lt hlisted hpc
      exact hle.trans_lt (Nat.add_lt_add_right hlt _)

theorem filter_of_step (h : s.Grounded) (hs : s.step c e = some t) : t.filter = s.filter := by
  have hm := (step_move h hs).1
  have hfilter : t.view.filter = s.view.filter := by
    generalize t.view = w at hm ⊢
    cases hm <;> rfl
  exact hfilter

theorem Orphaned.step (h : s.Orphaned) (hreuse : ¬ e.Reuses s.group.targetPid)
    (hs : s.step c e = some t) : t.Orphaned := by
  have htarget : t.group.targetPid = s.group.targetPid :=
    congrArg ProcessFilter.pid (filter_of_step h.grounded hs)
  refine ⟨h.toPlanted.step hs, htarget ▸ h.target_gt, ?_⟩
  rw [htarget]
  cases e with
  | env event =>
    obtain ⟨os, hos, rfl⟩ := step_env hs
    exact Os.not_alive_of_envStep h.dead hreuse hos
  | limiter a =>
    rcases delivers_of_limiterStep h.grounded hs with hos | ⟨pid, signal, hos⟩
    · rw [hos]
      exact h.dead
    · rw [hos, Os.alive_deliver]
      exact h.dead

end System

end CpuLimit
