import CpuLimit.ChildOf
import CpuLimit.SelfLimit
import CpuLimit.SignalOrder

/-!
# The way out

Once `quit_flag` is set the limiter has a bounded number of steps left, whatever the other
processes do between them, and it is never stuck before it returns: the walks of
`is_child_of` end, because no event makes a cycle of parents. As in `Limiter`, a walk is one
step, and the processes have names under which the readers find the parent.
-/
namespace CpuLimit

open Library

/-! ## Walks end -/

namespace Os

variable {os os' : Os}

theorem acyclic_of_parentOf (h : ∀ pid, ¬ ParentTree.Ancestor os.parentOf pid pid) : os.Acyclic :=
  fun pid hpid => h pid (hpid.mono fun _ _ hlink => parentOf_of_shownParent hlink)

/-- The walk ends whichever start times can be read. The induction is along the links. -/
theorem isChildOfLoop_ends (hacyclic : os.Acyclic) (parentPid : Pid)
    (parentStart : Option Timespec) (childPid : Pid) :
    ∃ b, Fuel.Returns (os.isChildOfLoop parentPid parentStart) childPid b := by
  induction childPid using hacyclic.wellFounded.induction with
  | _ childPid ih =>
    by_cases hle : childPid ≤ 1
    · exact ⟨false, .stop fun fuel => by rw [isChildOfLoop, if_pos hle]⟩
    by_cases hstart : os.startedBefore childPid parentStart = true
    · exact ⟨false, .stop fun fuel => by rw [isChildOfLoop, if_neg hle, if_pos hstart]⟩
    by_cases hfound : os.getppidOf childPid = parentPid
    · refine ⟨true, .stop fun fuel => ?_⟩
      rw [isChildOfLoop, if_neg hle, if_neg hstart]
      exact if_pos hfound
    have hnext : ∀ fuel, os.isChildOfLoop parentPid parentStart (fuel + 1) childPid =
        os.isChildOfLoop parentPid parentStart fuel (os.getppidOf childPid) := by
      intro fuel
      rw [isChildOfLoop, if_neg hle, if_neg hstart]
      exact if_neg hfound
    by_cases hpos : 0 < os.getppidOf childPid
    · obtain ⟨b, hb⟩ := ih _ (shownParent_eq_some.mpr ⟨not_le.mp hle, hpos, rfl⟩)
      exact ⟨b, .step hnext hb⟩
    · have hroot : os.getppidOf childPid ≤ 1 := (not_lt.mp hpos).trans zero_le_one
      exact ⟨false, .step hnext (.stop fun fuel => by rw [isChildOfLoop, if_pos hroot])⟩

theorem isChildOf_ends (hacyclic : os.Acyclic) (childPid parentPid : Pid) :
    ∃ fuel ok, os.isChildOf fuel childPid parentPid = some ok := by
  by_cases hguard : childPid ≤ 1 ∨ parentPid ≤ 0 ∨ childPid = parentPid
  · exact ⟨0, false, by rw [isChildOf, if_pos hguard]⟩
  by_cases hone : parentPid = 1
  · exact ⟨0, true, by rw [isChildOf, if_neg hguard, if_pos hone]⟩
  obtain ⟨ok, enough, hloop⟩ :=
    isChildOfLoop_ends hacyclic parentPid (os.getStartTime parentPid) childPid
  exact ⟨enough, ok, by rw [isChildOf, if_neg hguard, if_neg hone, hloop enough le_rfl]⟩

/-- The filter decides on every entry. -/
theorem passes_ends (hacyclic : os.Acyclic) (filter : ProcessFilter) (pid : Pid) :
    ∃ fuel ok, os.passes fuel filter pid = some ok := by
  by_cases hone : readsOne filter
  · exact ⟨0, true, by rw [passes, if_pos hone]⟩
  by_cases hpid : pid ≤ 0
  · exact ⟨0, false, by rw [passes, if_neg hone, if_pos hpid]⟩
  by_cases hchild : filter.pid ≠ 0 ∧ filter.pid ≠ pid
  · obtain ⟨fuel, ok, hwalk⟩ := isChildOf_ends hacyclic pid filter.pid
    exact ⟨fuel, ok, by rw [passes, if_neg hone, if_neg hpid, if_pos hchild, hwalk]⟩
  · exact ⟨0, true, by rw [passes, if_neg hone, if_neg hpid, if_neg hchild]⟩

/-- The directory can be listed with as many entries as there are processes. -/
theorem opened_ends (os : Os) (filter : ProcessFilter) :
    ∃ listing entries, listing.length ≤ os.procs.length ∧
      os.opened filter listing = some entries := by
  let listing := (os.procs.map OsProcess.pid).dedup
  have hlength : listing.length ≤ os.procs.length := by
    have hle := (List.dedup_sublist (os.procs.map OsProcess.pid)).length_le
    rwa [List.length_map] at hle
  have hlisting : listing.Nodup ∧ ∀ p ∈ os.procs, p.pid ∈ listing :=
    ⟨List.nodup_dedup _, fun p hp => List.mem_dedup.mpr (List.mem_map_of_mem hp)⟩
  by_cases hopens : os.procOpens = false
  · exact ⟨listing, [], hlength, by rw [opened, if_pos hopens]⟩
  by_cases hone : readsOne filter
  · exact ⟨listing, [filter.pid], hlength, by rw [opened, if_neg hopens, if_pos hone]⟩
  · exact ⟨listing, listing, hlength, by rw [opened, if_neg hopens, if_neg hone, if_pos hlisting]⟩

theorem length_of_opened {filter : ProcessFilter} {listing entries : List Pid}
    (h : os.opened filter listing = some entries) : entries.length ≤ listing.length + 1 := by
  unfold opened at h
  split_ifs at h <;> cases h <;> simp

/-! ## No event makes a cycle -/

/-- Parents are process 1 or alive, and nobody is above itself. -/
structure Tree (os : Os) : Prop where
  rooted : os.Rooted
  acyclic : ∀ pid, ¬ ParentTree.Ancestor os.parentOf pid pid

/-- A process on a cycle is alive, so that it was on one before, or it has just been
forked by a process below it. -/
theorem Tree.envStep (ht : os.Tree) {event : EnvEvent} (h : os.envStep event = some os') :
    os'.Tree := by
  have hrooted := ht.rooted.envStep h
  refine ⟨hrooted, fun pid hcycle => ?_⟩
  have hgt : 1 < pid := by
    obtain ⟨parent, hparent, -⟩ := ParentTree.ancestor_iff.mp hcycle
    exact (parentOf_eq_some.mp hparent).1
  have hnew := not_le.mpr hgt
  by_cases hold : os.alive pid = true
  · exact ht.acyclic pid ((ancestor_of_envStep ht.rooted h hold hcycle).resolve_left hnew)
  · obtain ⟨p', hp', hz⟩ := alive_iff.mp ((alive_of_ancestor hrooted hcycle).resolve_left hnew)
    rcases envStep_back h hp' with ⟨p, hp, hkeeps⟩ | ⟨-, parent, startTime, permitted, rfl, -⟩
    · refine hold (alive_iff.mpr ⟨p, hp, ?_⟩)
      by_contra hpz
      rw [hkeeps.zombie (Bool.not_eq_false _ ▸ hpz)] at hz
      cases hz
    · have hparent := (envStep_spec h).1.1
      rcases ancestor_of_fork h hcycle with rfl | hanc
      · exact hold hparent
      · have hanc := (ancestor_of_envStep ht.rooted h hparent hanc).resolve_left hnew
        exact hold ((alive_of_ancestor ht.rooted hanc).resolve_left hnew)

theorem tree_of_procs (hrooted : ∀ p ∈ os.procs, p.ppid ≤ 1 ∨ os.alive p.ppid = true)
    (h : ∀ p ∈ os.procs, p.ppid < p.pid) : os.Tree := by
  refine ⟨rooted_of_procs hrooted, ParentTree.acyclic_of_lt fun pid parent hlink => ?_⟩
  obtain ⟨-, p, hp, rfl⟩ := parentOf_eq_some.mp hlink
  obtain ⟨hmem, rfl⟩ := mem_of_proc hp
  exact h p hmem

theorem Tree.deliver (ht : os.Tree) (pid : Pid) (signal : Signal) : (os.deliver pid signal).Tree :=
  ⟨ht.rooted.deliver pid signal, by rw [parentOf_deliver]; exact ht.acyclic⟩

end Os

/-! ## The steps that are left -/

/-- A bound on the steps of the limiter after `quit_flag` is set, when no directory that
it opens has more than `listed` entries. -/
def View.stepsLeft (listed : ℕ) (v : View) : ℕ :=
  let count := v.members.length
  match v.pc with
  | .beginUpdate => 5 * (listed + 1) + 9
  | .scanning _ entries => 3 * count + 5 * entries.length + 8
  | .reading _ _ entries => 3 * count + 5 * entries.length + 12
  | .control => 3 * count + 7
  | .contPass node => (count - node) + 2 * count + 6
  | .work => 2 * count + 5
  | .stopPass node => (count - node) + count + 4
  | .loopHead => count + 3
  | .afterLoop => count + 2
  | .resume node => (count - node) + 1
  | .returned => 0

def Event.isLimiter : Event → Bool
  | .env _ => false
  | .limiter _ => true

/-- The length of the directory that is shown. -/
def Event.listed : Event → ℕ
  | .env _ => 0
  | .limiter a => a.listing.length

namespace Move

variable {self : Pid} {v w : View} {a : Answer} {listed : ℕ}

theorem stepsLeft_pass {signal : Signal} {node : ℕ} (hpc : v.pc = Pc.pass signal node) :
    (View.stepsLeft listed { v with pc := Pc.afterPass signal }) + 1 ≤ v.stepsLeft listed := by
  cases signal <;> simp only [View.stepsLeft, hpc, Pc.pass, Pc.afterPass] <;> omega

theorem stepsLeft_lt (hm : Move self v (.limiter a) w) (hlisted : a.listing.length ≤ listed)
    (hpc : v.pc ≠ .loopHead) : w.stepsLeft listed < v.stepsLeft listed := by
  cases hm with
  | openProc hat hopen =>
    have hlength := Os.length_of_opened hopen
    simp only [View.stepsLeft, hat, List.length_nil]
    omega
  | closeProc hat hnext =>
    rcases hnext with rfl | rfl <;> simp only [View.stepsLeft, hat, List.length_nil] <;> omega
  | accept hat | refuse hat =>
    simp only [View.stepsLeft, hat, List.length_cons]
    omega
  | unreadable hat =>
    simp only [View.stepsLeft, hat]
    omega
  | join hat =>
    simp only [View.stepsLeft, hat, List.length_append, List.length_singleton]
    omega
  | quit hat | again hat => exact absurd hat hpc
  | noMore hat hempty =>
    simp only [View.stepsLeft, hat]
    omega
  | control hat =>
    simp only [View.stepsLeft, hat]
    omega
  | work hat hnext =>
    rcases hnext with rfl | rfl <;> simp only [View.stepsLeft, hat] <;> omega
  | passDone signal hat hnode => exact stepsLeft_pass hat
  | delivered signal hat hnode hkill =>
    have hlt := (List.getElem?_eq_some_iff.mp hnode).1
    cases signal <;> simp only [View.stepsLeft, hat, Pc.pass] <;> omega
  | dropped signal hat hnode hkill =>
    have hlt := (List.getElem?_eq_some_iff.mp hnode).1
    have hlength := List.length_eraseIdx_of_lt hlt
    cases signal <;> simp only [View.stepsLeft, hat, Pc.pass, hlength] <;> omega
  | leave hat hquit | resumeAll hat =>
    simp only [View.stepsLeft, hat]
    omega
  | resumeDone hat hnode =>
    simp only [View.stepsLeft, hat]
    omega
  | resumed hat hnode hkill | notResumed hat hnode hkill =>
    have hlt := (List.getElem?_eq_some_iff.mp hnode).1
    simp only [View.stepsLeft, hat]
    omega

end Move

/-! ## Runs -/

/-- What holds throughout a run, among processes that form a tree. -/
structure System.Planted (s : System) : Prop where
  grounded : s.Grounded
  tree : s.os.Tree

/-- What holds after `quit_flag` is set. -/
structure System.Quitting (s : System) : Prop extends s.Planted where
  quit : s.os.quitFlag = true

namespace System

variable {c : Setting} {s t : System} {e : Event} {listed : ℕ}

theorem step_env {event : Os.EnvEvent} (hs : s.step c (.env event) = some t) :
    ∃ os, s.os.envStep event = some os ∧ t = { s with os := os } := by
  simp only [System.step] at hs
  split_ifs at hs
  obtain ⟨os, hos, rfl⟩ := Option.map_eq_some_iff.mp hs
  exact ⟨os, hos, rfl⟩

/-- The limiter does nothing to the system around it but to deliver a signal. -/
theorem delivers_of_limiterStep (h : s.Grounded) {a : Answer} (hs : s.limiterStep c a = some t) :
    t.os = s.os ∨ ∃ pid signal, t.os = s.os.deliver pid signal := by
  have hstep : s.step c (.limiter a) = some t := hs
  have hos : t.os = (s.view.signal (.limiter a)).elim s.os fun x => s.os.deliver x.2 x.1 :=
    (step_move h hstep).1.os_eq
  rw [hos]
  cases s.view.signal (.limiter a) with
  | none => exact Or.inl rfl
  | some x => exact Or.inr ⟨x.2, x.1, rfl⟩

/-- What a step of the limiter leaves of the system around it. -/
theorem os_of_limiterStep (h : s.Grounded) {a : Answer} (hs : s.limiterStep c a = some t) :
    t.os.quitFlag = s.os.quitFlag ∧ t.os.procs.length = s.os.procs.length ∧
      (s.os.Tree → t.os.Tree) := by
  rcases delivers_of_limiterStep h hs with hos | ⟨pid, signal, hos⟩
  · rw [hos]
    exact ⟨rfl, rfl, id⟩
  · rw [hos]
    exact ⟨rfl, List.length_map _, fun ht => ht.deliver pid signal⟩

theorem Planted.step (h : s.Planted) (hs : s.step c e = some t) : t.Planted := by
  refine ⟨(step_move h.grounded hs).2, ?_⟩
  cases e with
  | env event =>
    obtain ⟨os, hos, rfl⟩ := step_env hs
    exact h.tree.envStep hos
  | limiter a => exact (os_of_limiterStep h.grounded hs).2.2 h.tree

theorem Quitting.step (h : s.Quitting) (hs : s.step c e = some t) : t.Quitting := by
  refine ⟨h.toPlanted.step hs, ?_⟩
  cases e with
  | env event =>
    obtain ⟨os, hos, rfl⟩ := step_env hs
    exact (Os.envStep_spec hos).2.1 h.quit
  | limiter a => exact (os_of_limiterStep h.grounded hs).1.trans h.quit

theorem Quitting.stepsLeft_lt (h : s.Quitting) {a : Answer} (hlisted : a.listing.length ≤ listed)
    (hs : s.limiterStep c a = some t) : t.view.stepsLeft listed < s.view.stepsLeft listed := by
  by_cases hpc : s.pc = .loopHead
  · simp only [limiterStep, hpc, h.quit, if_true, Option.some.injEq] at hs
    subst hs
    simp only [View.stepsLeft, view, hpc]
    exact Nat.lt_succ_self _
  · have hstep : s.step c (.limiter a) = some t := hs
    exact (step_move h.grounded hstep).1.stepsLeft_lt hlisted hpc

/-- Before it returns the limiter can take a step: only the directory and the filter ask
for an answer that has to fit. -/
theorem exists_step (c : Setting) (ht : s.os.Tree) (hpc : s.pc ≠ .returned) :
    ∃ a t, a.listing.length ≤ s.os.procs.length ∧ s.limiterStep c a = some t := by
  let idle : Answer := ⟨⟨0, 0⟩, [], 0, 0, [], none⟩
  have hidle : idle.listing.length ≤ s.os.procs.length := Nat.zero_le _
  cases hat : s.pc with
  | beginUpdate =>
    obtain ⟨listing, entries, hlength, hopen⟩ := s.os.opened_ends s.filter
    refine ⟨{ idle with listing := listing }, ?_⟩
    simp only [limiterStep, hat, hopen, Option.map_some]
    exact ⟨_, hlength, rfl⟩
  | scanning now entries =>
    cases entries with
    | nil =>
      refine ⟨idle, ?_⟩
      simp only [limiterStep, hat]
      exact ⟨_, hidle, rfl⟩
    | cons pid entries =>
      obtain ⟨fuel, ok, hpass⟩ := Os.passes_ends (Os.acyclic_of_parentOf ht.acyclic) s.filter pid
      refine ⟨{ idle with fuel := fuel }, ?_⟩
      simp only [limiterStep, hat, hpass, Option.map_some]
      exact ⟨_, hidle, rfl⟩
  | reading now pid entries =>
    refine ⟨idle, ?_⟩
    simp only [limiterStep, hat]
    cases s.os.readProcessInfo pid idle.cputime idle.command with
    | none => exact ⟨_, hidle, rfl⟩
    | some tmp => exact ⟨_, hidle, rfl⟩
  | returned => exact absurd hat hpc
  | loopHead | control | contPass node | work | stopPass node | afterLoop | resume node =>
    refine ⟨idle, ?_⟩
    simp only [limiterStep, hat]
    exact ⟨_, hidle, rfl⟩

/-- A condition under which the limiter winds up: events that are `ok` keep it, and every
step of the limiter lowers a bound that the environment does not touch. -/
structure WindsUp (c : Setting) (cond : System → Prop) (ok : Event → Prop)
    (left : ℕ → System → ℕ) : Prop where
  planted : ∀ s, cond s → s.Planted
  limiter_ok : ∀ a, ok (.limiter a)
  step : ∀ s e t, cond s → ok e → s.step c e = some t → cond t
  left_os : ∀ listed s os, left listed { s with os := os } = left listed s
  left_lt : ∀ listed s a t, cond s → a.listing.length ≤ listed → s.limiterStep c a = some t →
    left listed t < left listed s

namespace WindsUp

variable {cond : System → Prop} {ok : Event → Prop} {left : ℕ → System → ℕ}

/-- A step of the environment costs nothing, a step of the limiter one. -/
theorem left_le (h : WindsUp c cond ok left) (hs : cond s) (hlisted : e.listed ≤ listed)
    (hstep : s.step c e = some t) : e.isLimiter.toNat + left listed t ≤ left listed s := by
  cases e with
  | env event =>
    obtain ⟨os, -, rfl⟩ := step_env hstep
    rw [h.left_os]
    exact (Nat.zero_add _).le
  | limiter a =>
    rw [Nat.add_comm]
    exact h.left_lt listed s a t hs hlisted hstep

/-- However many events come between them, the limiter has no more steps than the bound. -/
theorem steps_le (h : WindsUp c cond ok left) (hs : cond s) {later : List Event}
    (hlater : ∀ e ∈ later, e.listed ≤ listed ∧ ok e)
    (hrun : Runs.runPartial (System.step c) s later = some t) :
    later.countP Event.isLimiter + left listed t ≤ left listed s := by
  have hstep : ∀ (s : System) e t, cond s → e.listed ≤ listed ∧ ok e → s.step c e = some t →
      cond t ∧ e.isLimiter.toNat + left listed t ≤ left listed s :=
    fun s e t hs he hst => ⟨h.step s e t hs he.2 hst, h.left_le hs he.1 hst⟩
  exact Runs.countP_add_measure_le hstep hs hlater hrun

end WindsUp

theorem start_planted {os : Os} (htree : os.Tree) {target : Pid} (htarget : 0 < target)
    (includeChildren : Bool) (now : Timespec) (timeSlot : ℚ) :
    (start os target includeChildren now timeSlot).Planted :=
  ⟨start_grounded os htarget includeChildren now timeSlot, htree⟩

theorem Planted.of_run (h : s.Planted) {events : List Event}
    (hrun : Runs.runPartial (System.step c) s events = some t) : t.Planted :=
  Runs.runPartial_invariant (fun _ _ _ h hs => h.step hs) h hrun

end System

end CpuLimit
