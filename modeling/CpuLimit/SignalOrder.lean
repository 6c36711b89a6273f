import CpuLimit.Resumption
import CpuLimit.Library.Alternation

/-!
# The order of the signals

The signals that a run of `limit_process` delivers come in rounds: first SIGCONT to
members, each once, then SIGSTOP to some of the same. So however the steps of the limiter
and of the other processes interleave, no `pid` is sent SIGSTOP without SIGCONT since the
SIGSTOP before.
-/
namespace CpuLimit

open Library
open Library.Alternation (Guarded Round)

/-- The signals of a round. -/
abbrev roundSignals (r : Round Pid) : List (Signal × Pid) :=
  r.trace (Signal.cont, ·) (Signal.stop, ·)

namespace View

variable (v : View)

/-- The member at a position, if `kill` succeeds for it. -/
def reached (node : ℕ) : Option Pid := (v.members[node]?).filter v.os.killSucceeds

/-- The signal that a step delivers, if it delivers one. -/
def signal : Event → Option (Signal × Pid)
  | .env _ => none
  | .limiter _ =>
    match v.pc with
    | .contPass node => (v.reached node).map (Signal.cont, ·)
    | .stopPass node => (v.reached node).map (Signal.stop, ·)
    | .resume node => (v.reached node).map (Signal.cont, ·)
    | _ => none

variable {v}

theorem reached_of_succeeds {node : ℕ} {pid : Pid} (hnode : v.members[node]? = some pid)
    (hkill : v.os.killSucceeds pid = true) : v.reached node = some pid := by
  rw [reached, hnode, Option.filter_some, if_pos hkill]

theorem reached_of_fails {node : ℕ} {pid : Pid} (hnode : v.members[node]? = some pid)
    (hkill : v.os.killSucceeds pid = false) : v.reached node = none := by
  rw [reached, hnode, Option.filter_some, if_neg (by simp [hkill])]

theorem reached_of_end {node : ℕ} (hnode : v.members[node]? = none) : v.reached node = none := by
  rw [reached, hnode, Option.filter_none]

theorem signal_pass {signal : Signal} {node : ℕ} (hpc : v.pc = Pc.pass signal node) (a : Answer) :
    v.signal (.limiter a) = (v.reached node).map (signal, ·) := by
  cases signal <;> simp only [View.signal, hpc, Pc.pass]

theorem signal_resume {node : ℕ} (hpc : v.pc = .resume node) (a : Answer) :
    v.signal (.limiter a) = (v.reached node).map (Signal.cont, ·) := by
  simp only [View.signal, hpc]

end View

/-- The limiter changes nothing around it but by the signal that it delivers. -/
theorem Move.os_eq {self : Pid} {v w : View} {a : Answer} (h : Move self v (.limiter a) w) :
    w.os = (v.signal (.limiter a)).elim v.os fun x => v.os.deliver x.2 x.1 := by
  cases h with
  | passDone signal hpc hnode => rw [View.signal_pass hpc, View.reached_of_end hnode]; rfl
  | delivered signal hpc hnode hkill =>
    rw [View.signal_pass hpc, View.reached_of_succeeds hnode hkill]; rfl
  | dropped signal hpc hnode hkill =>
    rw [View.signal_pass hpc, View.reached_of_fails hnode hkill]; rfl
  | resumeDone hpc hnode => rw [View.signal_resume hpc, View.reached_of_end hnode]; rfl
  | resumed hpc hnode hkill =>
    rw [View.signal_resume hpc, View.reached_of_succeeds hnode hkill]; rfl
  | notResumed hpc hnode hkill =>
    rw [View.signal_resume hpc, View.reached_of_fails hnode hkill]; rfl
  | openProc hpc | closeProc hpc | accept hpc | refuse hpc | unreadable hpc | join hpc
  | quit hpc | again hpc | noMore hpc | control hpc | work hpc | leave hpc | resumeAll hpc =>
    simp only [View.signal, hpc, Option.elim_none]

/-! ## The round that is open -/

/-- What the signals of the open round have to do with the members. A member that could
not be stopped has left the group, a member that could not be resumed has not. -/
def Fits (v : View) (r : Round Pid) : Prop :=
  match v.pc with
  | .contPass node => r = ⟨v.members.take node, []⟩
  | .work => r = ⟨v.members, []⟩
  | .stopPass node =>
    v.members.Sublist r.opened ∧ r.opened.Nodup ∧ r.closed = v.members.take node
  | .resume node => r.opened.Sublist (v.members.take node) ∧ r.closed = []
  | _ => r = ⟨[], []⟩

/-- The signals so far are those of the rounds that are over and of the open one. -/
def InRounds (past : List (Signal × Pid)) (v : View) : Prop :=
  ∃ (done : List (Round Pid)) (r : Round Pid),
    past = done.flatMap roundSignals ++ roundSignals r ∧ (∀ r' ∈ done, r'.Valid) ∧ Fits v r

namespace InRounds

variable {past : List (Signal × Pid)} {v w : View} {self : Pid} {e : Event}

theorem valid_of_fits {r : Round Pid} (hv : v.members.Nodup) (h : Fits v r) : r.Valid := by
  unfold Fits at h
  split at h
  · rw [h]
    exact ⟨List.nil_sublist _, hv.sublist (List.take_sublist _ _)⟩
  · rw [h]
    exact ⟨List.nil_sublist _, hv⟩
  · obtain ⟨hmembers, hopened, hclosed⟩ := h
    refine ⟨?_, hopened⟩
    rw [hclosed]
    exact (List.take_sublist _ _).trans hmembers
  · obtain ⟨hopened, hclosed⟩ := h
    refine ⟨?_, hv.sublist (hopened.trans (List.take_sublist _ _))⟩
    rw [hclosed]
    exact List.nil_sublist _
  · rw [h]
    exact ⟨List.nil_sublist _, List.nodup_nil⟩

/-- A step without a signal, in which the round goes on. -/
theorem go (h : InRounds past v) (hs : v.signal e = none) (hfits : ∀ r, Fits v r → Fits w r) :
    InRounds (past ++ (v.signal e).toList) w := by
  obtain ⟨done, r, he, hdone, hr⟩ := h
  exact ⟨done, r, by rw [hs, Option.toList_none, List.append_nil, he], hdone, hfits r hr⟩

/-- A step without a signal, at which the round ends. -/
theorem finish (h : InRounds past v) (hv : v.members.Nodup) (hs : v.signal e = none)
    (hfits : Fits w ⟨[], []⟩) : InRounds (past ++ (v.signal e).toList) w := by
  obtain ⟨done, r, he, hdone, hr⟩ := h
  refine ⟨done ++ [r], ⟨[], []⟩, ?_, fun r' hr' => ?_, hfits⟩
  · rw [hs, he, List.flatMap_append, List.flatMap_singleton]
    simp [Round.trace]
  · rcases List.mem_append.mp hr' with hold | hnew
    · exact hdone r' hold
    · rw [List.mem_singleton.mp hnew]
      exact valid_of_fits hv hr

/-- A step that delivers SIGCONT. -/
theorem continued (h : InRounds past v) {pid : Pid} (hs : v.signal e = some (.cont, pid))
    (hclosed : ∀ r, Fits v r → r.closed = [])
    (hfits : ∀ r, Fits v r → Fits w ⟨r.opened ++ [pid], []⟩) :
    InRounds (past ++ (v.signal e).toList) w := by
  obtain ⟨done, r, he, hdone, hr⟩ := h
  refine ⟨done, _, ?_, hdone, hfits r hr⟩
  rw [hs, he, roundSignals, roundSignals, Round.trace, Round.trace, hclosed r hr]
  simp

/-- A step that delivers SIGSTOP. -/
theorem stopped (h : InRounds past v) {pid : Pid} (hs : v.signal e = some (.stop, pid))
    (hfits : ∀ r, Fits v r → Fits w ⟨r.opened, r.closed ++ [pid]⟩) :
    InRounds (past ++ (v.signal e).toList) w := by
  obtain ⟨done, r, he, hdone, hr⟩ := h
  refine ⟨done, _, ?_, hdone, hfits r hr⟩
  rw [hs, he, roundSignals, roundSignals, Round.trace, Round.trace]
  simp

theorem fits_of_pc_eq (hpc : w.pc = v.pc) (hmembers : w.members = v.members) {r : Round Pid}
    (h : Fits v r) : Fits w r := by
  unfold Fits at h ⊢
  rw [hpc, hmembers]
  exact h

theorem passDone (h : InRounds past v) (hv : v.members.Nodup) (signal : Signal) {node : ℕ}
    {a : Answer} (hpc : v.pc = Pc.pass signal node) (hnode : v.members[node]? = none) :
    InRounds (past ++ (v.signal (.limiter a)).toList) { v with pc := Pc.afterPass signal } := by
  have hs : v.signal (.limiter a) = none := by
    rw [View.signal_pass hpc, View.reached_of_end hnode, Option.map_none]
  have htake : v.members.take node = v.members :=
    List.take_of_length_le (List.getElem?_eq_none_iff.mp hnode)
  cases signal with
  | cont =>
    refine h.go hs fun r hr => ?_
    simp only [Fits, hpc, Pc.pass, htake] at hr
    exact hr
  | stop => exact h.finish hv hs rfl

theorem delivered (h : InRounds past v) (signal : Signal) {node : ℕ} {pid : Pid} {a : Answer}
    (hpc : v.pc = Pc.pass signal node) (hnode : v.members[node]? = some pid)
    (hkill : v.os.killSucceeds pid = true) :
    InRounds (past ++ (v.signal (.limiter a)).toList)
      { v with os := v.os.deliver pid signal, pc := Pc.pass signal (node + 1) } := by
  have hs : v.signal (.limiter a) = some (signal, pid) := by
    rw [View.signal_pass hpc, View.reached_of_succeeds hnode hkill, Option.map_some]
  have htake := Sweep.take_succ hnode
  cases signal with
  | cont =>
    refine h.continued hs (fun r hr => ?_) fun r hr => ?_
    · simp only [Fits, hpc, Pc.pass] at hr
      rw [hr]
    · simp only [Fits, hpc, Pc.pass] at hr ⊢
      rw [hr, htake]
  | stop =>
    refine h.stopped hs fun r hr => ?_
    simp only [Fits, hpc, Pc.pass] at hr ⊢
    exact ⟨hr.1, hr.2.1, by rw [hr.2.2, htake]⟩

theorem dropped (h : InRounds past v) (signal : Signal) {node : ℕ} {pid : Pid} {a : Answer}
    (hpc : v.pc = Pc.pass signal node) (hnode : v.members[node]? = some pid)
    (hkill : v.os.killSucceeds pid = false) :
    InRounds (past ++ (v.signal (.limiter a)).toList)
      { v with members := v.members.eraseIdx node, pc := Pc.pass signal node } := by
  have hs : v.signal (.limiter a) = none := by
    rw [View.signal_pass hpc, View.reached_of_fails hnode hkill, Option.map_none]
  refine h.go hs fun r hr => ?_
  cases signal with
  | cont =>
    simp only [Fits, hpc, Pc.pass, Sweep.take_eraseIdx] at hr ⊢
    exact hr
  | stop =>
    simp only [Fits, hpc, Pc.pass, Sweep.take_eraseIdx] at hr ⊢
    exact ⟨(List.eraseIdx_sublist _ _).trans hr.1, hr.2⟩

theorem resumed (h : InRounds past v) {node : ℕ} {pid : Pid} {a : Answer}
    (hpc : v.pc = .resume node) (hnode : v.members[node]? = some pid)
    (hkill : v.os.killSucceeds pid = true) :
    InRounds (past ++ (v.signal (.limiter a)).toList)
      { v with os := v.os.deliver pid .cont, pc := .resume (node + 1) } := by
  have hs : v.signal (.limiter a) = some (.cont, pid) := by
    rw [View.signal_resume hpc, View.reached_of_succeeds hnode hkill, Option.map_some]
  refine h.continued hs (fun r hr => ?_) fun r hr => ?_
  · simp only [Fits, hpc] at hr
    exact hr.2
  · simp only [Fits, hpc, Sweep.take_succ hnode] at hr ⊢
    exact ⟨hr.1.append (List.Sublist.refl _), trivial⟩

theorem notResumed (h : InRounds past v) {node : ℕ} {pid : Pid} {a : Answer}
    (hpc : v.pc = .resume node) (hnode : v.members[node]? = some pid)
    (hkill : v.os.killSucceeds pid = false) :
    InRounds (past ++ (v.signal (.limiter a)).toList) { v with pc := .resume (node + 1) } := by
  have hs : v.signal (.limiter a) = none := by
    rw [View.signal_resume hpc, View.reached_of_fails hnode hkill, Option.map_none]
  refine h.go hs fun r hr => ?_
  simp only [Fits, hpc, Sweep.take_succ hnode] at hr ⊢
  exact ⟨hr.1.trans (List.sublist_append_left _ _), hr.2⟩

/-- What a step does to the rounds. -/
theorem move (h : InRounds past v) (hv : v.members.Nodup) (hm : Move self v e w) :
    InRounds (past ++ (v.signal e).toList) w := by
  cases hm with
  | env => exact h.go rfl fun r => fits_of_pc_eq rfl rfl
  | closeProc hpc hnext =>
    refine h.go (by simp only [View.signal, hpc]) fun r hr => ?_
    simp only [Fits, hpc] at hr
    rcases hnext with rfl | rfl <;> exact hr
  | work hpc hnext =>
    have hs : ∀ a, v.signal (.limiter a) = none := fun a => by simp only [View.signal, hpc]
    rcases hnext with rfl | rfl
    · refine h.go (hs _) fun r hr => ?_
      simp only [Fits, hpc] at hr ⊢
      rw [hr]
      exact ⟨List.Sublist.refl _, hv, rfl⟩
    · exact h.finish hv (hs _) rfl
  | control hpc =>
    refine h.go (by simp only [View.signal, hpc]) fun r hr => ?_
    simpa only [Fits, hpc, List.take_zero] using hr
  | resumeAll hpc =>
    refine h.go (by simp only [View.signal, hpc]) fun r hr => ?_
    simp only [Fits, hpc] at hr ⊢
    rw [hr]
    exact ⟨List.nil_sublist _, rfl⟩
  | passDone signal hpc hnode => exact h.passDone hv signal hpc hnode
  | delivered signal hpc hnode hkill => exact h.delivered signal hpc hnode hkill
  | dropped signal hpc hnode hkill => exact h.dropped signal hpc hnode hkill
  | resumed hpc hnode hkill => exact h.resumed hpc hnode hkill
  | notResumed hpc hnode hkill => exact h.notResumed hpc hnode hkill
  | resumeDone hpc hnode =>
    have hs := View.reached_of_end hnode
    exact h.finish hv (by rw [View.signal_resume hpc, hs, Option.map_none]) rfl
  | openProc hpc | accept hpc | refuse hpc | unreadable hpc | join hpc | quit hpc | again hpc
  | noMore hpc | leave hpc =>
    refine h.go (by simp only [View.signal, hpc]) fun r hr => ?_
    simpa only [Fits, hpc] using hr

end InRounds

/-! ## Runs -/

namespace System

/-- The signals that a run delivers. -/
def delivered (c : Setting) (s : System) (events : List Event) : List (Signal × Pid) :=
  Runs.trace (step c) (fun s e => s.view.signal e) s events

theorem Grounded.members_nodup {s : System} (h : s.Grounded) : s.view.members.Nodup :=
  h.distinct.sublist (List.sublist_append_left _ _)

end System

/-- The signals of every run come in rounds of SIGCONT to distinct members and SIGSTOP to
some of these, so that between two SIGSTOP to a `pid`, and before the first one, there is
always a SIGCONT to it. But for its signals the limiter leaves the system alone. -/
theorem delivered_in_rounds (c : Setting) (os : Os) {target : Pid} (htarget : 0 < target)
    (includeChildren : Bool) (now : Timespec) (timeSlot : ℚ) {events : List Event} {t : System}
    (hrun : Runs.runPartial (System.step c)
      (System.start os target includeChildren now timeSlot) events = some t) :
    let sent := System.delivered c (System.start os target includeChildren now timeSlot) events
    (∃ rounds : List (Round Pid), sent = rounds.flatMap roundSignals ∧ ∀ r ∈ rounds, r.Valid) ∧
      (∀ pid, Guarded (· = (Signal.cont, pid)) (· = (Signal.stop, pid)) sent) ∧
        ∀ a u, t.step c (.limiter a) = some u →
          u.os = (t.view.signal (.limiter a)).elim t.os fun x => t.os.deliver x.2 x.1 := by
  have hstart : InRounds [] (System.start os target includeChildren now timeSlot).view :=
    ⟨[], ⟨[], []⟩, rfl, by simp, rfl⟩
  have hstep : ∀ past (s : System) e t, s.Grounded ∧ InRounds past s.view →
      System.step c s e = some t →
        t.Grounded ∧ InRounds (past ++ (s.view.signal e).toList) t.view := by
    intro past s e t ⟨hgrounded, hrounds⟩ hs
    obtain ⟨hm, hg⟩ := System.step_move hgrounded hs
    exact ⟨hg, hrounds.move hgrounded.members_nodup hm⟩
  obtain ⟨hgrounded, done, r, hsent, hdone, hr⟩ := Runs.trace_invariant hstep
    ⟨System.start_grounded os htarget includeChildren now timeSlot, hstart⟩ hrun
  have hrounds : ∀ r' ∈ done ++ [r], r'.Valid := by
    intro r' hr'
    rcases List.mem_append.mp hr' with hold | hnew
    · exact hdone r' hold
    · rw [List.mem_singleton.mp hnew]
      exact InRounds.valid_of_fits hgrounded.members_nodup hr
  have hsent' : System.delivered c (System.start os target includeChildren now timeSlot) events =
      (done ++ [r]).flatMap roundSignals := by
    rw [List.flatMap_append, List.flatMap_singleton]
    exact hsent
  refine ⟨⟨done ++ [r], hsent', hrounds⟩, fun pid => ?_, fun a u hu => ?_⟩
  · rw [hsent']
    exact Round.guarded_flatMap hrounds (fun _ _ h => congrArg Prod.snd h) (by simp) pid
  · exact (System.step_move hgrounded hu).1.os_eq

/-- The run in which process 7 is stopped, and resumed on the way out. -/
theorem delivered_in_rounds_quitEvents :
    System.delivered loneSetting loneStart quitEvents = [(.cont, 7), (.stop, 7), (.cont, 7)] ∧
      Guarded (· = (Signal.cont, 7)) (· = (Signal.stop, 7))
        (System.delivered loneSetting loneStart quitEvents) := by
  have hrun : (Runs.runPartial (System.step loneSetting) loneStart quitEvents).isSome = true := by
    decide +kernel
  obtain ⟨t, ht⟩ := Option.isSome_iff_exists.mp hrun
  exact ⟨by decide +kernel, (delivered_in_rounds loneSetting loneOs (by decide) false ⟨0, 0⟩
    timeSlotBase ht).2.1 7⟩

end CpuLimit
