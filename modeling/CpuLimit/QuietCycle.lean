import CpuLimit.Limiter
import CpuLimit.Library.Sweep

/-!
# Cycles that nothing interferes with

`limit_process` is modelled twice: by whole cycles, whose scans and signal
failures are inputs, and by single steps among other processes. When no event of
the environment falls into a cycle, the steps of the second model add up to one
cycle of the first, over the scan and the failures that the system dictates.
-/
namespace CpuLimit

open Library

namespace Os

variable (os : Os)

/-- The signals of a pass, in list order. -/
def deliverAll (signal : Signal) (pids : List Pid) : Os :=
  pids.foldl (fun os pid => os.deliver pid signal) os

theorem killSucceeds_deliver (pid : Pid) (signal : Signal) (q : Pid) :
    (os.deliver pid signal).killSucceeds q = os.killSucceeds q := by
  rw [killSucceeds, killSucceeds, proc_deliver, Option.any_map]
  congr 1
  funext p
  split_ifs <;> rfl

theorem killSucceeds_deliverAll (signal : Signal) (pids : List Pid) (q : Pid) :
    (os.deliverAll signal pids).killSucceeds q = os.killSucceeds q := by
  induction pids generalizing os with
  | nil => rfl
  | cons pid pids ih =>
    exact (ih (os.deliver pid signal)).trans (os.killSucceeds_deliver pid signal q)

theorem quitFlag_deliverAll (signal : Signal) (pids : List Pid) :
    (os.deliverAll signal pids).quitFlag = os.quitFlag := by
  induction pids generalizing os with
  | nil => rfl
  | cons pid pids ih => exact ih (os.deliver pid signal)

end Os

namespace System

variable {c : Setting}

/-- The members that the remaining signals of a pass reach. -/
def receivers (s : System) (node : ℕ) : List Pid :=
  (s.group.memberPids.drop node).filter s.os.killSucceeds

/-- In a signal pass the limiter takes one node a step. -/
theorem step_pass (a : Answer) (signal : Signal) {node : ℕ} {s : System}
    (hpc : s.pc = Pc.pass signal node) : step c s (.limiter a) =
      some (s.passStep signal (Pc.pass signal) (Pc.afterPass signal) node) := by
  show s.limiterStep c a = _
  cases signal <;> rw [limiterStep, hpc] <;> rfl

/-- The pass ends behind the last node. -/
theorem passEnd_run (a : Answer) (signal : Signal) {node : ℕ} {s : System}
    (hpc : s.pc = Pc.pass signal node) (hid : s.group.proclist[node]? = none) :
    Runs.Reaches (step c) s
      { s with
        os := s.os.deliverAll signal (s.receivers node)
        pc := Pc.afterPass signal } := by
  have hnone : s.receivers node = [] := by
    have hlen : s.group.memberPids.length ≤ node := by
      simpa [ProcessGroup.memberPids] using List.getElem?_eq_none_iff.mp hid
    rw [receivers, List.drop_of_length_le hlen, List.filter_nil]
  refine .single ((step_pass a signal hpc).trans ?_)
  rw [passStep, hid, hnone]
  rfl

/-- The steps of a signal pass add up to `signalPass`. The induction is over the
nodes that are left. -/
theorem pass_run (a : Answer) (signal : Signal) {left node : ℕ} {s : System}
    (hpc : s.pc = Pc.pass signal node) (hleft : s.group.memberPids.length ≤ node + left) :
    Runs.Reaches (step c) s
      { s with
        os := s.os.deliverAll signal (s.receivers node)
        group := ProcessGroup.signalPass (fun pid => !s.os.killSucceeds pid) left node s.group
        pc := Pc.afterPass signal } := by
  induction left generalizing node s with
  | zero =>
    refine passEnd_run a signal hpc (List.getElem?_eq_none_iff.mpr ?_)
    simpa [ProcessGroup.memberPids] using hleft
  | succ left ih =>
    cases hid : s.group.proclist[node]? with
    | none =>
      rw [ProcessGroup.signalPass, hid]
      exact passEnd_run a signal hpc hid
    | some id =>
      have hnode := s.group.getElem?_memberPids node
      rw [hid] at hnode
      have hdrop := Sweep.drop_eq_cons hnode
      have hmove := step_pass (c := c) a signal hpc
      rw [passStep, hid] at hmove
      rw [ProcessGroup.signalPass, hid]
      dsimp only at hmove ⊢
      by_cases hkill : s.os.killSucceeds (s.group.records.pidOf id) = true
      · rw [if_pos hkill] at hmove
        rw [if_neg (by simp [hkill])]
        have hsame : (s.os.deliver (s.group.records.pidOf id) signal).killSucceeds =
            s.os.killSucceeds := funext (s.os.killSucceeds_deliver _ signal)
        have hrest := ih (s := { s with
          os := s.os.deliver (s.group.records.pidOf id) signal
          pc := Pc.pass signal (node + 1) }) rfl (by dsimp only; omega)
        simp only [receivers, hsame] at hrest
        rw [receivers, hdrop, List.filter_cons_of_pos hkill]
        exact (Runs.Reaches.single hmove).trans hrest
      · rw [if_neg hkill] at hmove
        rw [if_pos (by simp [hkill])]
        have hmembers := ProcessGroup.memberPids_dropMember s.group node
        have hlen := Sweep.length_eraseIdx hnode
        have hrest := ih (s := { s with
          group := s.group.dropMember node
          pc := Pc.pass signal node }) rfl (by dsimp only; rw [hmembers]; omega)
        simp only [receivers, hmembers, Sweep.drop_eraseIdx hnode] at hrest
        rw [receivers, hdrop, List.filter_cons_of_neg hkill]
        exact (Runs.Reaches.single hmove).trans hrest

/-- What the system answers during a quiet cycle: one clock reading and one
listing, and the CPU time and the command of each process. -/
structure Calm where
  now : Timespec
  listing : List Pid
  fuel : ℕ
  cputime : Pid → ℚ
  command : Pid → List Char
  load : Option ℚ

def Calm.answer (e : Calm) (pid : Pid) : Answer :=
  ⟨e.now, e.listing, e.fuel, e.cputime pid, e.command pid, e.load⟩

/-- The descriptors that a quiet scan of the entries yields. -/
def Calm.yielded (e : Calm) (os : Os) (f : ProcessFilter) (entries : List Pid) : List Process :=
  entries.filterMap fun pid =>
    if os.passes e.fuel f pid = some true then
      os.readProcessInfo pid (e.cputime pid) (e.command pid)
    else none

theorem Calm.yielded_cons (e : Calm) (os : Os) (f : ProcessFilter) (pid : Pid)
    (entries : List Pid) :
    e.yielded os f (pid :: entries) = e.yielded os f [pid] ++ e.yielded os f entries :=
  List.filterMap_append (l := [pid])

/-- The filter and the record of one entry are one turn of the update loop, or none. -/
theorem entry_run (e : Calm) {s : System} {pid : Pid} {entries : List Pid}
    (hpc : s.pc = .scanning e.now (pid :: entries))
    (hpass : (s.os.passes e.fuel s.filter pid).isSome) :
    Runs.Reaches (step c) s
      { s with
        group := (e.yielded s.os s.filter [pid]).foldl
          (ProcessGroup.updateStep (timediffInMs e.now s.group.lastUpdate)) s.group
        pc := .scanning e.now entries } := by
  obtain ⟨ok, hok⟩ := Option.isSome_iff_exists.mp hpass
  have hentry : step c s (.limiter (e.answer pid)) =
      some { s with pc := if ok then .reading e.now pid entries else .scanning e.now entries } := by
    show s.limiterStep c (e.answer pid) = _
    rw [limiterStep, hpc]
    exact Option.map_eq_some_iff.mpr ⟨ok, hok, rfl⟩
  cases ok with
  | false =>
    have hnone : e.yielded s.os s.filter [pid] = [] := by simp [Calm.yielded, hok]
    rw [hnone]
    exact .single hentry
  | true =>
    refine (Runs.Reaches.single hentry).trans (.single (i := .limiter (e.answer pid)) ?_)
    show limiterStep { s with pc := .reading e.now pid entries } c (e.answer pid) = _
    cases htmp : s.os.readProcessInfo pid (e.cputime pid) (e.command pid) with
    | none =>
      have hnone : e.yielded s.os s.filter [pid] = [] := by simp [Calm.yielded, hok, htmp]
      rw [hnone]
      simp [limiterStep, Calm.answer, htmp]
    | some tmp =>
      have hone : e.yielded s.os s.filter [pid] = [tmp] := by simp [Calm.yielded, hok, htmp]
      rw [hone]
      simp [limiterStep, Calm.answer, htmp]

theorem filter_foldl_updateStep (dt : ℚ) (s : System) (processes : List Process) (pc : Pc) :
    ({ s with group := processes.foldl (ProcessGroup.updateStep dt) s.group, pc := pc } :
      System).filter = s.filter := by
  induction processes generalizing s with
  | nil => rfl
  | cons tmp processes ih =>
    obtain ⟨ht, hi⟩ := targetPid_updateStep dt s.group tmp
    refine (ih { s with group := s.group.updateStep dt tmp }).trans ?_
    simp only [filter, ht, hi]

/-- The steps of a quiet scan add up to the loop of `update_process_group`. The
induction is over the entries. -/
theorem scan_run (e : Calm) {entries : List Pid} {s : System} (hpc : s.pc = .scanning e.now entries)
    (hpass : ∀ pid ∈ entries, (s.os.passes e.fuel s.filter pid).isSome) :
    Runs.Reaches (step c) s
      { s with
        group := (e.yielded s.os s.filter entries).foldl
          (ProcessGroup.updateStep (timediffInMs e.now s.group.lastUpdate)) s.group
        pc := .scanning e.now [] } := by
  induction entries generalizing s with
  | nil =>
    have hs : { s with pc := .scanning e.now [] } = s := by rw [← hpc]
    show Runs.Reaches (step c) s { s with pc := .scanning e.now [] }
    rw [hs]
    exact .refl s
  | cons pid entries ih =>
    have hentry := entry_run (c := c) e hpc (hpass pid (by simp))
    have hf := filter_foldl_updateStep (timediffInMs e.now s.group.lastUpdate) s
      (e.yielded s.os s.filter [pid]) (.scanning e.now entries)
    have hrest := ih (s := { s with
      group := (e.yielded s.os s.filter [pid]).foldl
        (ProcessGroup.updateStep (timediffInMs e.now s.group.lastUpdate)) s.group
      pc := .scanning e.now entries }) rfl fun q hq => by
        rw [hf]
        exact hpass q (by simp [hq])
    simp only [hf, ProcessGroup.foldl_updateStep_lastUpdate] at hrest
    rw [Calm.yielded_cons, List.foldl_append]
    exact hentry.trans hrest

/-- The steps of a whole update. -/
theorem update_run (e : Calm) {entries : List Pid} {s : System} (hpc : s.pc = .beginUpdate)
    (hopen : s.os.opened s.filter e.listing = some entries)
    (hpass : ∀ pid ∈ entries, (s.os.passes e.fuel s.filter pid).isSome) :
    Runs.Reaches (step c) s
      { s with
        group := s.group.update e.now (e.yielded s.os s.filter entries)
        pc := if s.inLoop then .control else .loopHead } := by
  have hbegin : step c s (.limiter (e.answer 0)) =
      some { s with group := s.group.clearMembers, pc := .scanning e.now entries } := by
    show s.limiterStep c (e.answer 0) = _
    rw [limiterStep, hpc]
    exact Option.map_eq_some_iff.mpr ⟨entries, hopen, rfl⟩
  have hscan := scan_run (c := c) e
    (s := { s with group := s.group.clearMembers, pc := .scanning e.now entries }) rfl hpass
  exact ((Runs.Reaches.single hbegin).trans hscan).trans
    (.single (i := .limiter (e.answer 0)) rfl)

/-- The cycle of the whole-cycle model that a quiet cycle amounts to. -/
def calmInput (s : System) (e : Calm) (entries : List Pid) : CycleInput where
  now := e.now
  yielded := e.yielded s.os s.filter entries
  load := e.load
  contFails := fun pid => !s.os.killSucceeds pid
  stopFails := fun pid => !s.os.killSucceeds pid

/-- The two signal passes of a cycle, with the working slice between them. -/
theorem passes_run (a : Answer) {s : System} (hpc : s.pc = .contPass 0) :
    let fails := fun pid => !s.os.killSucceeds pid
    let g := ProcessGroup.signalPass fails s.group.proclist.length 0 s.group
    ∃ t, Runs.Reaches (step c) s t ∧ t.pc = .loopHead ∧
      t.group = (if 0 < s.duty.tsleep.tvNsec ∨ 0 < s.duty.tsleep.tvSec then
        ProcessGroup.signalPass fails g.proclist.length 0 g else g) ∧
      t.duty = s.duty ∧ t.os.quitFlag = s.os.quitFlag ∧
      t.os.killSucceeds = s.os.killSucceeds := by
  intro fails g
  have hlen : ∀ g : ProcessGroup, g.memberPids.length ≤ 0 + g.proclist.length := by
    intro g
    simp [ProcessGroup.memberPids]
  have hcont := pass_run (c := c) a .cont hpc (hlen s.group)
  let os := s.os.deliverAll .cont (s.receivers 0)
  have hkill : os.killSucceeds = s.os.killSucceeds :=
    funext (s.os.killSucceeds_deliverAll .cont (s.receivers 0))
  have hquit : os.quitFlag = s.os.quitFlag := s.os.quitFlag_deliverAll .cont (s.receivers 0)
  by_cases hsleep : 0 < s.duty.tsleep.tvNsec ∨ 0 < s.duty.tsleep.tvSec
  · let u : System := { s with os := os, group := g, pc := .stopPass 0 }
    have hwork : step c { u with pc := .work } (.limiter a) = some u := by
      show limiterStep { u with pc := .work } c a = _
      rw [limiterStep, if_pos hsleep]
    have hstop := pass_run (c := c) a .stop (s := u) rfl (hlen g)
    refine ⟨_, (hcont.trans (.single hwork)).trans hstop, rfl, ?_, rfl, ?_, ?_⟩
    · rw [if_pos hsleep]
      dsimp only [u]
      rw [hkill]
    · exact (os.quitFlag_deliverAll .stop (u.receivers 0)).trans hquit
    · exact (funext (os.killSucceeds_deliverAll .stop (u.receivers 0))).trans hkill
  · have hwork : step c { s with os := os, group := g, pc := .work } (.limiter a) =
        some { s with os := os, group := g, pc := .loopHead } := by
      show limiterStep { s with os := os, group := g, pc := .work } c a = _
      rw [limiterStep, if_neg hsleep]
    refine ⟨_, hcont.trans (.single hwork), rfl, ?_, rfl, hquit, hkill⟩
    rw [if_neg hsleep]

/-- Without interference the steps from one loop head to the next add up to one
cycle of the whole-cycle model, and the exit of an empty group to its exit. -/
theorem quiet_cycle (c : Setting) (e : Calm) {entries : List Pid} {s : System}
    (hpc : s.pc = .loopHead) (hquit : s.os.quitFlag = false)
    (hopen : s.os.opened s.filter e.listing = some entries)
    (hpass : ∀ pid ∈ entries, (s.os.passes e.fuel s.filter pid).isSome) :
    let cycle := LimitState.limitCycle c.ncpu c.limit ⟨s.group, s.duty⟩ (s.calmInput e entries)
    (cycle = none → ∃ t, Runs.Reaches (step c) s t ∧ t.pc = .afterLoop ∧ t.os = s.os ∧
        t.group.proclist = []) ∧
      ∀ l, cycle = some l → ∃ t, Runs.Reaches (step c) s t ∧ t.pc = .loopHead ∧
        t.group = l.group ∧ t.duty = l.duty ∧ t.os.quitFlag = false ∧
        t.os.killSucceeds = s.os.killSucceeds := by
  intro cycle
  have hhead : step c s (.limiter (e.answer 0)) =
      some { s with pc := .beginUpdate, inLoop := true } := by
    show s.limiterStep c (e.answer 0) = _
    rw [limiterStep, hpc, hquit]
    rfl
  have hupdate := update_run (c := c) e (s := { s with pc := .beginUpdate, inLoop := true }) rfl
    hopen hpass
  let g := s.group.update e.now (e.yielded s.os s.filter entries)
  let u : System := { s with group := g, pc := .control, inLoop := true }
  have hu : Runs.Reaches (step c) s u := (Runs.Reaches.single hhead).trans hupdate
  have hcontrol : step c u (.limiter (e.answer 0)) =
      some (if g.proclist.length = 0 then { u with pc := .afterLoop }
        else { u with duty := s.duty.cycle c.ncpu c.limit g.usages e.load, pc := .contPass 0 }) :=
    rfl
  by_cases hempty : g.proclist.length = 0
  · have hnone : cycle = none := if_pos hempty
    rw [if_pos hempty] at hcontrol
    refine ⟨fun _ => ?_, by simp [hnone]⟩
    exact ⟨_, hu.trans (.single hcontrol), rfl, rfl, List.length_eq_zero_iff.mp hempty⟩
  · rw [if_neg hempty] at hcontrol
    obtain ⟨t, ht, hloop, hgroup, hduty, htquit, htkill⟩ := passes_run (c := c) (e.answer 0)
      (s := { u with duty := s.duty.cycle c.ncpu c.limit g.usages e.load, pc := .contPass 0 }) rfl
    have hsome : cycle = some ⟨t.group, t.duty⟩ := by
      rw [hgroup, hduty]
      exact if_neg hempty
    refine ⟨by simp [hsome], fun l hl => ?_⟩
    cases hsome.symm.trans hl
    exact ⟨t, (hu.trans (.single hcontrol)).trans ht, hloop, rfl, rfl, htquit.trans hquit, htkill⟩

end System

end CpuLimit
