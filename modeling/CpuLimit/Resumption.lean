import CpuLimit.Limiter
import CpuLimit.Library.Runs
import CpuLimit.Library.Sweep

/-!
# Who is left stopped

A process that the run stopped waits for a SIGCONT of the run. The processes that
the limiter will still resume are the members that its current loop has not
reached, and before that the candidates of its scan; an update that passes over a
waiting process loses it.
-/
namespace CpuLimit

open Library

/-- The process is alive and the last signal that the run sent it is SIGSTOP. -/
def Os.Awaits (os : Os) (pid : Pid) : Prop :=
  ∃ p, os.proc pid = some p ∧ p.zombie = false ∧ p.lastSignal = some .stop

instance (os : Os) (pid : Pid) : Decidable (os.Awaits pid) :=
  decidable_of_iff
    ((os.proc pid).any fun p => !p.zombie && decide (p.lastSignal = some .stop))
    (by simp [Os.Awaits, Option.any_eq_true])

/-- The step at this point does not pass over a waiting process: /proc opens if
there is one, and when its entry comes up, it is the target or, with children, a
child of the target, and its record can be read. -/
def SeesAt (v : View) (a : Answer) : Pc → Prop
  | .beginUpdate => (∃ p ∈ v.os.procs, v.os.Awaits p.pid) → v.os.procOpens = true
  | .scanning _ (pid :: _) => v.os.Awaits pid → v.os.passes a.fuel v.filter pid = some true
  | .reading _ pid _ => v.os.Awaits pid → (v.os.proc pid).any OsProcess.readable = true
  | _ => True

def Sees (v : View) : Event → Prop
  | .env _ => True
  | .limiter a => SeesAt v a v.pc

instance (v : View) (a : Answer) (pc : Pc) : Decidable (SeesAt v a pc) :=
  match pc with
  | .beginUpdate => inferInstanceAs (Decidable (_ → _))
  | .scanning _ (_ :: _) => inferInstanceAs (Decidable (_ → _))
  | .reading _ _ _ => inferInstanceAs (Decidable (_ → _))
  | .scanning _ [] | .loopHead | .control | .contPass _ | .work | .stopPass _ | .afterLoop
  | .resume _ | .returned => isTrue trivial

instance (v : View) (e : Event) : Decidable (Sees v e) :=
  match e with
  | .env _ => isTrue trivial
  | .limiter a => inferInstanceAs (Decidable (SeesAt v a v.pc))

namespace Os

variable {os os' : Os}

/-- Nobody begins to wait through the environment. -/
theorem Awaits.back {event : EnvEvent} (h : os.envStep event = some os') {pid : Pid}
    (ha : os'.Awaits pid) : os.Awaits pid := by
  obtain ⟨p', hp', hz, hs⟩ := ha
  rcases envStep_back h hp' with ⟨p, hp, hkeeps⟩ | ⟨-, parent, startTime, permitted, -, rfl⟩
  · refine ⟨p, hp, ?_, hkeeps.lastSignal ▸ hs⟩
    by_contra hpz
    rw [hkeeps.zombie (Bool.not_eq_false _ ▸ hpz)] at hz
    cases hz
  · cases hs

theorem awaits_deliver_cont {pid q : Pid} (h : (os.deliver pid .cont).Awaits q) :
    os.Awaits q ∧ q ≠ pid := by
  obtain ⟨p', hp', hz, hs⟩ := h
  rw [proc_deliver, Option.map_eq_some_iff] at hp'
  obtain ⟨p, hp, rfl⟩ := hp'
  by_cases hq : q = pid
  · simp [hq] at hs
  · simp only [hq, if_false] at hz hs
    exact ⟨⟨p, hp, hz, hs⟩, hq⟩

theorem awaits_deliver_stop {pid q : Pid} (h : (os.deliver pid .stop).Awaits q) :
    q = pid ∨ os.Awaits q := by
  obtain ⟨p', hp', hz, hs⟩ := h
  rw [proc_deliver, Option.map_eq_some_iff] at hp'
  obtain ⟨p, hp, rfl⟩ := hp'
  by_cases hq : q = pid
  · exact Or.inl hq
  · simp only [hq, if_false] at hz hs
    exact Or.inr ⟨p, hp, hz, hs⟩

end Os

/-- What holds of the signals of a run at any time: only processes that may be
signalled were, without children only the target, and the loop is left when
`quit_flag` is set or the group is empty. -/
structure Accounted (v : View) : Prop where
  permitted : ∀ pid p, v.os.proc pid = some p → p.lastSignal ≠ none → p.permitted = true
  only : Os.readsOne v.filter → ∀ pid, v.os.Awaits pid → pid = v.filter.pid
  exits : v.pc = .afterLoop → v.os.quitFlag = true ∨ v.members = []

/-- The processes that the limiter will come to before it returns or scans again. -/
def View.ahead (v : View) : List Pid :=
  match v.pc with
  | .scanning _ entries => v.members ++ entries
  | .reading _ pid entries => v.members ++ pid :: entries
  | .loopHead | .control | .afterLoop => v.members
  | .contPass node | .resume node => v.members.drop node
  | .stopPass node => v.members.take node
  | .beginUpdate | .work | .returned => []

/-- Every waiting process is ahead. A new scan is a new chance. -/
def Covered (v : View) : Prop := v.pc = .beginUpdate ∨ ∀ pid, v.os.Awaits pid → pid ∈ v.ahead

namespace Accounted

variable {v w : View} {self : Pid} {e : Event}

/-- A process that cannot be signalled does not wait. -/
theorem not_awaits (h : Accounted v) {pid : Pid} (hk : v.os.killSucceeds pid = false) :
    ¬ v.os.Awaits pid := by
  intro ⟨p, hp, _, hs⟩
  have hperm := h.permitted pid p hp (by simp [hs])
  simp [Os.killSucceeds, hp, hperm] at hk

theorem deliver (h : Accounted v) {pid : Pid} (signal : Signal) {pc : Pc}
    (hk : v.os.killSucceeds pid = true) (hmem : pid ∈ v.members)
    (honly : Os.readsOne v.filter → ∀ pid ∈ v.members, pid = v.filter.pid) (hpc : pc ≠ .afterLoop) :
    Accounted { v with os := v.os.deliver pid signal, pc := pc } := by
  refine ⟨fun q p' hp' hs => ?_, fun hone q hq => ?_, fun he => absurd he hpc⟩
  · dsimp only at hp'
    rw [Os.proc_deliver, Option.map_eq_some_iff] at hp'
    obtain ⟨p, hp, rfl⟩ := hp'
    by_cases hq : q = pid
    · subst hq
      simpa [Os.killSucceeds, hp] using hk
    · simp only [hq, if_false] at hs ⊢
      exact h.permitted q p hp hs
  · cases signal with
    | cont => exact h.only hone q (Os.awaits_deliver_cont hq).1
    | stop =>
      rcases Os.awaits_deliver_stop hq with rfl | hq
      · exact honly hone q hmem
      · exact h.only hone q hq

theorem env (h : Accounted v) {event : Os.EnvEvent} {os : Os}
    (hstep : v.os.envStep event = some os) : Accounted { v with os := os } := by
  refine ⟨fun pid p' hp' hs => ?_, fun hone pid hp => h.only hone pid (hp.back hstep),
    fun he => (h.exits he).imp_left (Os.envStep_spec hstep).2.1⟩
  rcases Os.envStep_back hstep hp' with ⟨p, hp, hkeeps⟩ | ⟨-, parent, startTime, permitted, -, rfl⟩
  · rw [hkeeps.permitted]
    exact h.permitted pid p hp (hkeeps.lastSignal ▸ hs)
  · exact absurd rfl hs

/-- Steps that only move on. -/
theorem of_pc (h : Accounted v) (members : List Pid) {pc : Pc}
    (hpc : pc = .afterLoop → v.os.quitFlag = true ∨ members = []) :
    Accounted { v with members := members, pc := pc } :=
  ⟨h.permitted, h.only, hpc⟩

theorem pass_ne_afterLoop (signal : Signal) (node : ℕ) : Pc.pass signal node ≠ .afterLoop := by
  cases signal <;> simp [Pc.pass]

theorem move (h : Accounted v) (hm : Move self v e w)
    (honly : Os.readsOne v.filter → ∀ pid ∈ v.members, pid = v.filter.pid) : Accounted w := by
  cases hm with
  | env hself hstep => exact h.env hstep
  | closeProc hpc hnext =>
    refine h.of_pc v.members fun he => ?_
    rcases hnext with hn | hn <;> rw [hn] at he <;> cases he
  | quit hpc hquit => exact h.of_pc v.members fun _ => Or.inl hquit
  | noMore hpc hempty => exact h.of_pc v.members fun _ => Or.inr hempty
  | work hpc hnext =>
    refine h.of_pc v.members fun he => ?_
    rcases hnext with hn | hn <;> rw [hn] at he <;> cases he
  | passDone signal hpc hnode =>
    refine h.of_pc v.members fun he => ?_
    cases signal <;> cases he
  | delivered signal hpc hnode hkill =>
    exact h.deliver signal hkill (List.mem_of_getElem? hnode) honly (pass_ne_afterLoop signal _)
  | dropped signal hpc hnode hkill =>
    exact h.of_pc _ fun he => absurd he (pass_ne_afterLoop signal _)
  | resumed hpc hnode hkill =>
    exact h.deliver .cont hkill (List.mem_of_getElem? hnode) honly (by simp)
  | openProc hpc hopen => exact h.of_pc _ (by simp)
  | accept hpc hpass => exact h.of_pc v.members (by simp)
  | refuse hpc hpass => exact h.of_pc v.members (by simp)
  | unreadable hpc hread => exact h.of_pc v.members (by simp)
  | join hpc => exact h.of_pc _ (by simp)
  | again hpc => exact h.of_pc v.members (by simp)
  | control hpc => exact h.of_pc v.members (by simp)
  | leave hpc hquit => exact h.of_pc v.members (by simp)
  | resumeAll hpc => exact h.of_pc v.members (by simp)
  | resumeDone hpc hnode => exact h.of_pc v.members (by simp)
  | notResumed hpc hnode hkill => exact h.of_pc v.members (by simp)

end Accounted

namespace Covered

variable {v w : View} {self : Pid} {e : Event}

theorem ahead (h : Covered v) (hpc : v.pc ≠ .beginUpdate) {pid : Pid} (ha : v.os.Awaits pid) :
    pid ∈ v.ahead :=
  h.resolve_left hpc pid ha

/-- The new scan has every waiting process among its entries. -/
theorem openProc (hacc : Accounted v) {a : Answer} {entries : List Pid}
    (hpc : v.pc = .beginUpdate) (hopen : v.os.opened v.filter a.listing = some entries)
    (hsees : Sees v (.limiter a)) {pid : Pid} (ha : v.os.Awaits pid) : pid ∈ entries := by
  simp only [Sees, SeesAt, hpc] at hsees
  obtain ⟨p, hp, hlast⟩ := ha
  obtain ⟨hmem, rfl⟩ := Os.mem_of_proc hp
  have hopens := hsees ⟨p, hmem, p, hp, hlast⟩
  simp only [Os.opened, hopens, Bool.true_eq_false, if_false] at hopen
  split_ifs at hopen with hone hlist
  · cases hopen
    exact List.mem_singleton.mpr (hacc.only hone p.pid ⟨p, hp, hlast⟩)
  · cases hopen
    exact hlist.2 p hmem

/-- A step that leaves the processes alone and passes over none that waits. -/
theorem keep (h : Covered v) (hpc : v.pc ≠ .beginUpdate) (hos : w.os = v.os)
    (hahead : ∀ pid ∈ v.ahead, v.os.Awaits pid → pid ∈ w.ahead) : Covered w := by
  right
  intro pid ha
  rw [hos] at ha
  exact hahead pid (h.ahead hpc ha) ha

/-- An entry of the scan that does not wait can be passed over. -/
theorem skip (h : Covered v) {now : Timespec} {pid : Pid} {entries : List Pid}
    (hpc : v.pc ≠ .beginUpdate) (hv : v.ahead = v.members ++ pid :: entries)
    (hnot : ¬ v.os.Awaits pid) : Covered { v with pc := .scanning now entries } := by
  refine h.keep hpc rfl fun q hq ha => ?_
  have hne : q ≠ pid := fun he => hnot (he ▸ ha)
  rw [hv, List.mem_append, List.mem_cons] at hq
  simpa [View.ahead, hne] using hq

/-- A member that got SIGCONT does not wait any more. -/
theorem continued (h : Covered v) {pid : Pid} {node : ℕ} {pc : Pc} (hpc : v.pc ≠ .beginUpdate)
    (hnode : v.members[node]? = some pid) (hv : v.ahead = v.members.drop node)
    (hw : View.ahead { v with os := v.os.deliver pid .cont, pc := pc } =
      v.members.drop (node + 1)) :
    Covered { v with os := v.os.deliver pid .cont, pc := pc } := by
  right
  intro q ha
  obtain ⟨ha, hne⟩ := Os.awaits_deliver_cont ha
  have hq := h.ahead hpc ha
  rw [hv] at hq
  rw [hw]
  exact Sweep.mem_drop_succ hnode hq hne

/-- A member that got SIGSTOP is behind the node of its pass. -/
theorem stopped (h : Covered v) {pid : Pid} {node : ℕ} (hpc : v.pc = .stopPass node)
    (hnode : v.members[node]? = some pid) :
    Covered { v with os := v.os.deliver pid .stop, pc := .stopPass (node + 1) } := by
  right
  intro q ha
  simp only [View.ahead]
  rw [Sweep.take_succ hnode]
  rcases Os.awaits_deliver_stop ha with rfl | ha
  · simp
  · have hq := h.ahead (by simp [hpc]) ha
    simp only [View.ahead, hpc] at hq
    simp [hq]

/-- A member that could not be signalled does not wait. -/
theorem dropped (h : Covered v) (hacc : Accounted v) (signal : Signal) {pid : Pid} {node : ℕ}
    (hpc : v.pc = Pc.pass signal node) (hnode : v.members[node]? = some pid)
    (hkill : v.os.killSucceeds pid = false) :
    Covered { v with members := v.members.eraseIdx node, pc := Pc.pass signal node } := by
  cases signal with
  | cont =>
    refine h.keep (by simp [hpc, Pc.pass]) rfl fun q hq ha => ?_
    have hne : q ≠ pid := fun he => hacc.not_awaits hkill (he ▸ ha)
    simp only [View.ahead, hpc, Pc.pass] at hq ⊢
    rw [Sweep.drop_eraseIdx hnode]
    exact Sweep.mem_drop_succ hnode hq hne
  | stop =>
    refine h.keep (by simp [hpc, Pc.pass]) rfl fun q hq _ => ?_
    simp only [View.ahead, hpc, Pc.pass] at hq ⊢
    rwa [Sweep.take_eraseIdx]

/-- At the end of the first pass nobody waits, and at the end of the second one only
members do. -/
theorem passDone (h : Covered v) (signal : Signal) {node : ℕ} (hpc : v.pc = Pc.pass signal node)
    (hnode : v.members[node]? = none) : Covered { v with pc := Pc.afterPass signal } := by
  cases signal with
  | cont =>
    refine h.keep (by simp [hpc, Pc.pass]) rfl fun q hq _ => ?_
    simp only [View.ahead, hpc, Pc.pass] at hq
    rw [List.drop_of_length_le (List.getElem?_eq_none_iff.mp hnode)] at hq
    cases hq
  | stop =>
    refine h.keep (by simp [hpc, Pc.pass]) rfl fun q hq _ => ?_
    simp only [View.ahead, hpc, Pc.pass, Pc.afterPass] at hq ⊢
    exact List.mem_of_mem_take hq

theorem move (h : Covered v) (hacc : Accounted v) (hm : Move self v e w) (hsees : Sees v e) :
    Covered w := by
  cases hm with
  | env hself hstep => exact h.imp_right fun hv pid ha => hv pid (ha.back hstep)
  | openProc hpc hopen =>
    right
    intro pid ha
    simpa [View.ahead] using openProc hacc hpc hopen hsees ha
  | closeProc hpc hnext =>
    refine h.keep (by simp [hpc]) rfl fun pid hv _ => ?_
    rcases hnext with rfl | rfl <;> simpa [View.ahead, hpc] using hv
  | accept hpc hpass =>
    exact h.keep (by simp [hpc]) rfl fun pid hv _ => by simpa [View.ahead, hpc] using hv
  | @refuse a now pid entries hpc hpass =>
    -- the filter lets a waiting process pass
    have hnot : ¬ v.os.Awaits pid := by
      intro ha
      simp only [Sees, SeesAt, hpc] at hsees
      rw [hsees ha] at hpass
      cases hpass
    exact h.skip (by simp [hpc]) (by simp [View.ahead, hpc]) hnot
  | @unreadable a now pid entries hpc hread =>
    -- a waiting process is no zombie, and its record can be read
    have hnot : ¬ v.os.Awaits pid := by
      intro ha
      simp only [Sees, SeesAt, hpc] at hsees
      have hreadable := hsees ha
      obtain ⟨p, hp, hz, -⟩ := ha
      simp only [hp, Option.any_some] at hreadable
      simp [Os.readProcessInfo, hp, hz, hreadable] at hread
    exact h.skip (by simp [hpc]) (by simp [View.ahead, hpc]) hnot
  | join hpc =>
    exact h.keep (by simp [hpc]) rfl fun pid hv _ => by simpa [View.ahead, hpc] using hv
  | quit hpc hquit =>
    exact h.keep (by simp [hpc]) rfl fun pid hv _ => by simpa [View.ahead, hpc] using hv
  | again hpc => exact Or.inl rfl
  | noMore hpc hempty =>
    exact h.keep (by simp [hpc]) rfl fun pid hv _ => by simpa [View.ahead, hpc] using hv
  | control hpc =>
    exact h.keep (by simp [hpc]) rfl fun pid hv _ => by simpa [View.ahead, hpc] using hv
  | work hpc hnext =>
    exact h.keep (by simp [hpc]) rfl fun pid hv _ => by simp [View.ahead, hpc] at hv
  | passDone signal hpc hnode => exact h.passDone signal hpc hnode
  | delivered signal hpc hnode hkill =>
    cases signal with
    | cont =>
      exact h.continued (by simp [hpc, Pc.pass]) hnode (by simp [View.ahead, hpc, Pc.pass]) rfl
    | stop => exact h.stopped hpc hnode
  | dropped signal hpc hnode hkill => exact h.dropped hacc signal hpc hnode hkill
  | leave hpc hquit =>
    -- the loop was left because the group is empty
    have hempty := (hacc.exits hpc).resolve_left (by simp [hquit])
    exact h.keep (by simp [hpc]) rfl fun pid hv _ => by simp [View.ahead, hpc, hempty] at hv
  | resumeAll hpc =>
    exact h.keep (by simp [hpc]) rfl fun pid hv _ => by simpa [View.ahead, hpc] using hv
  | resumeDone hpc hnode =>
    refine h.keep (by simp [hpc]) rfl fun pid hv _ => ?_
    simp only [View.ahead, hpc] at hv
    rw [List.drop_of_length_le (List.getElem?_eq_none_iff.mp hnode)] at hv
    cases hv
  | resumed hpc hnode hkill =>
    exact h.continued (by simp [hpc]) hnode (by simp [View.ahead, hpc]) rfl
  | @notResumed a node pid hpc hnode hkill =>
    refine h.keep (by simp [hpc]) rfl fun q hv ha => ?_
    have hne : q ≠ pid := fun he => hacc.not_awaits hkill (he ▸ ha)
    simp only [View.ahead, hpc] at hv ⊢
    exact Sweep.mem_drop_succ hnode hv hne

end Covered

/-! ## Runs -/

/-- The invariant of all runs. -/
structure System.Sound (s : System) : Prop where
  grounded : s.Grounded
  accounted : Accounted s.view

namespace System

variable {c : Setting} {s t : System} {e : Event}

theorem Grounded.members_only (h : s.Grounded) (hone : Os.readsOne s.view.filter) :
    ∀ pid ∈ s.view.members, pid = s.view.filter.pid :=
  fun pid hpid => h.only hone pid (List.mem_append_left _ hpid)

theorem Sound.step (h : s.Sound) (hs : s.step c e = some t) : t.Sound := by
  obtain ⟨hm, hg⟩ := step_move h.grounded hs
  exact ⟨hg, h.accounted.move hm h.grounded.members_only⟩

/-- A run starts with processes that it has not signalled. -/
theorem start_sound {os : Os} (hos : ∀ p ∈ os.procs, p.lastSignal = none) {target : Pid}
    (htarget : 0 < target) (includeChildren : Bool) (now : Timespec) (timeSlot : ℚ) :
    (start os target includeChildren now timeSlot).Sound := by
  refine ⟨start_grounded os htarget includeChildren now timeSlot, ?_, ?_, ?_⟩
  · intro pid p hp hs
    exact absurd (hos p (Os.mem_of_proc hp).1) hs
  · intro _ pid ⟨p, hp, _, hs⟩
    have hnone := hos p (Os.mem_of_proc hp).1
    rw [hs] at hnone
    cases hnone
  · simp [view, start]

end System

/-- If from some update on the run passes over no waiting process, then nobody is
left stopped when it returns: every living process that it sent SIGSTOP has got
SIGCONT since. The condition on the last update alone is enough. -/
theorem none_awaits_of_sees (c : Setting) {os : Os} (hos : ∀ p ∈ os.procs, p.lastSignal = none)
    {target : Pid} (htarget : 0 < target) (includeChildren : Bool) (now : Timespec) (timeSlot : ℚ)
    {earlier later : List Event} {s t : System}
    (hearlier : Runs.runPartial (System.step c)
      (System.start os target includeChildren now timeSlot) earlier = some s)
    (hupdate : s.pc = .beginUpdate)
    (hsees : Runs.AlongPartial (System.step c) (fun s e _ => Sees s.view e) s later)
    (hlater : Runs.runPartial (System.step c) s later = some t) (hreturned : t.pc = .returned) :
    ∀ pid, ¬ t.os.Awaits pid := by
  have hsound : s.Sound := Runs.runPartial_invariant (fun _ _ _ h hs => h.step hs)
    (System.start_sound hos htarget includeChildren now timeSlot) hearlier
  have hstep : ∀ s e t, (s.Sound ∧ Covered s.view) → System.step c s e = some t →
      Sees s.view e → t.Sound ∧ Covered t.view := by
    intro s e t ⟨hs, hc⟩ hst hsee
    exact ⟨hs.step hst, hc.move hs.accounted (System.step_move hs.grounded hst).1 hsee⟩
  obtain ⟨t', ht', -, hcovered⟩ := hsees.invariant hstep ⟨hsound, Or.inl hupdate⟩
  cases hlater.symm.trans ht'
  intro pid ha
  have hahead := hcovered.ahead (by simp [System.view, hreturned]) ha
  simp [View.ahead, System.view, hreturned] at hahead

/-! ## A lone target -/

/-- Process 7 is limited by process 5; both are children of process 1. -/
def loneOs : Os where
  procs := [⟨5, 1, false, ⟨10, 0⟩, true, true, true, none⟩,
    ⟨7, 1, false, ⟨5, 0⟩, true, true, true, none⟩]
  procOpens := true
  quitFlag := false

def loneSetting : Setting := ⟨5, 1, 1 / 2⟩

def loneStart : System := System.start loneOs 7 false ⟨0, 0⟩ timeSlotBase

/-- A step of the limiter at clock reading `ms`, in milliseconds. -/
def limiterAt (ms : ℤ) : Event := .limiter ⟨⟨0, ms * 1000000⟩, [], 0, 0, ['t'], none⟩

/-- The initial update and one cycle, which ends with process 7 stopped. -/
def firstCycleEvents : List Event :=
  List.replicate 4 (limiterAt 0) ++ List.replicate 11 (limiterAt 1)

/-- The limiter is told to quit while process 7 is stopped. -/
def quitEvents : List Event :=
  firstCycleEvents ++ .env .quit :: List.replicate 4 (limiterAt 101)

/-- The record of process 7 cannot be read during the second update of the loop. -/
def unreadableEvents : List Event :=
  firstCycleEvents ++ .env (.setReadable 7 false) :: List.replicate 7 (limiterAt 101) ++
    [.env (.setReadable 7 true)]

/-- On the way out through `quit_flag` process 7 is resumed. -/
theorem none_awaits_of_sees_quitEvents :
    ∃ t, Runs.runPartial (System.step loneSetting) loneStart quitEvents = some t ∧
      t.pc = .returned ∧ ∀ pid, ¬ t.os.Awaits pid := by
  have hrun : (Runs.runPartial (System.step loneSetting) loneStart quitEvents).map System.pc =
      some .returned := by
    decide +kernel
  obtain ⟨t, ht, hpc⟩ := Option.map_eq_some_iff.mp hrun
  exact ⟨t, ht, hpc, none_awaits_of_sees loneSetting (by decide) (by decide) false ⟨0, 0⟩
    timeSlotBase (Runs.runPartial_nil (System.step loneSetting) loneStart) rfl (by decide +kernel)
    ht hpc⟩

/-- On the way out with no more processes it is not. -/
theorem awaits_of_unreadableEvents :
    (Runs.runPartial (System.step loneSetting) loneStart unreadableEvents).map
      (fun t => (t.pc, decide (t.os.Awaits 7))) = some (.returned, true) := by
  decide +kernel

end CpuLimit
