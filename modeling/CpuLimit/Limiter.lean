import CpuLimit.Controller
import CpuLimit.LimitProcess
import CpuLimit.ProcessGroup
import CpuLimit.ProcessIterator

/-!
# limit_process among other processes

`limit_process` as a machine that takes one step for each directory entry, each
record read and each signal, so that anything may happen to the other processes
in between. A step of `is_child_of` is one walk: it reads the process tree as it
is at that moment (`FileAccess` takes the walk apart). The other processes are the
environment of the machine, which may not end the limiter itself.
-/
namespace CpuLimit

open Library

/-- The point in `limit_process` that has been reached. `reading` is between the
filter of `get_next_process` and `read_process_info`. -/
inductive Pc
  | beginUpdate
  | scanning (now : Timespec) (entries : List Pid)
  | reading (now : Timespec) (pid : Pid) (entries : List Pid)
  | loopHead
  | control
  | contPass (node : ℕ)
  | work
  | stopPass (node : ℕ)
  | afterLoop
  | resume (node : ℕ)
  | returned
  deriving DecidableEq

/-- What the limiter learns from the system in one step, if the step asks for it:
the clock, the numeric entries of /proc, the contents of a record, the load, and
how far a walk through the tree may go. -/
structure Answer where
  now : Timespec
  listing : List Pid
  fuel : ℕ
  cputime : ℚ
  command : List Char
  load : Option ℚ

/-- The parameters of a run: the limiter's own `pid`, the CPUs and the limit. -/
structure Setting where
  self : Pid
  ncpu : ℤ
  limit : ℚ

/-- The limiter and the system around it. `inLoop` tells the updates of the loop
from the one in `init_process_group`. -/
structure System where
  os : Os
  group : ProcessGroup
  duty : Duty
  pc : Pc
  inLoop : Bool

namespace System

/-- The start of `limit_process`, after `init_process_group` has read the clock. -/
def start (os : Os) (target : Pid) (includeChildren : Bool) (now : Timespec) (timeSlot : ℚ) :
    System :=
  ⟨os, ProcessGroup.fresh target includeChildren now, Duty.start timeSlot, .beginUpdate, false⟩

variable (s : System)

def filter : ProcessFilter := ⟨s.group.targetPid, s.group.includeChildren⟩

/-- One step of a signal pass at position `node`. -/
def passStep (signal : Signal) (next : ℕ → Pc) (done : Pc) (node : ℕ) : System :=
  match s.group.proclist[node]? with
  | none => { s with pc := done }
  | some id =>
    if s.os.killSucceeds (s.group.records.pidOf id) then
      { s with os := s.os.deliver (s.group.records.pidOf id) signal, pc := next (node + 1) }
    else { s with group := s.group.dropMember node, pc := next node }

/-- One step of the last loop, which ignores the result of `kill`. -/
def resumeStep (node : ℕ) : System :=
  match s.group.proclist[node]? with
  | none => { s with pc := .returned }
  | some id =>
    if s.os.killSucceeds (s.group.records.pidOf id) then
      { s with os := s.os.deliver (s.group.records.pidOf id) .cont, pc := .resume (node + 1) }
    else { s with pc := .resume (node + 1) }

/-- One step of the limiter; `none` after the return, and when the answer does not
fit what is asked for. -/
def limiterStep (c : Setting) (a : Answer) : Option System :=
  match s.pc with
  | .beginUpdate =>
    (s.os.opened s.filter a.listing).map fun entries =>
      { s with group := s.group.clearMembers, pc := .scanning a.now entries }
  | .scanning now [] =>
    some { s with
      group := ProcessGroup.stamp now s.group
      pc := if s.inLoop then .control else .loopHead }
  | .scanning now (pid :: entries) =>
    (s.os.passes a.fuel s.filter pid).map fun ok =>
      { s with pc := if ok then .reading now pid entries else .scanning now entries }
  | .reading now pid entries =>
    match s.os.readProcessInfo pid a.cputime a.command with
    | none => some { s with pc := .scanning now entries }
    | some tmp =>
      some { s with
        group := ProcessGroup.updateStep (timediffInMs now s.group.lastUpdate) s.group tmp
        pc := .scanning now entries }
  | .loopHead =>
    some (if s.os.quitFlag then { s with pc := .afterLoop }
      else { s with pc := .beginUpdate, inLoop := true })
  | .control =>
    some (if s.group.proclist.length = 0 then { s with pc := .afterLoop }
      else { s with duty := s.duty.cycle c.ncpu c.limit s.group.usages a.load, pc := .contPass 0 })
  | .contPass node => some (s.passStep .cont .contPass .work node)
  | .work =>
    some { s with
      pc := if 0 < s.duty.tsleep.tvNsec ∨ 0 < s.duty.tsleep.tvSec then .stopPass 0 else .loopHead }
  | .stopPass node => some (s.passStep .stop .stopPass .loopHead node)
  | .afterLoop => some { s with pc := if s.os.quitFlag then .resume 0 else .returned }
  | .resume node => some (s.resumeStep node)
  | .returned => none

end System

/-- A step of the environment or of the limiter. -/
inductive Event
  | env (event : Os.EnvEvent)
  | limiter (answer : Answer)

/-- The limiter goes on living. -/
def Os.EnvEvent.Spares (self : Pid) : Os.EnvEvent → Prop
  | .exit pid => pid ≠ self
  | _ => True

instance (self : Pid) (event : Os.EnvEvent) : Decidable (event.Spares self) :=
  match event with
  | .exit pid => inferInstanceAs (Decidable (pid ≠ self))
  | .fork _ _ _ _ => inferInstanceAs (Decidable True)
  | .reap _ => inferInstanceAs (Decidable True)
  | .setReadable _ _ => inferInstanceAs (Decidable True)
  | .setStartReadable _ _ => inferInstanceAs (Decidable True)
  | .setProcOpens _ => inferInstanceAs (Decidable True)
  | .recover => inferInstanceAs (Decidable True)
  | .quit => inferInstanceAs (Decidable True)

def System.step (c : Setting) (s : System) : Event → Option System
  | .env event =>
    if event.Spares c.self then (s.os.envStep event).map fun os => { s with os := os } else none
  | .limiter a => s.limiterStep c a

/-! ## What a step does -/

/-- The position in a signal pass, and the point after it. -/
def Pc.pass : Signal → ℕ → Pc
  | .cont => .contPass
  | .stop => .stopPass

def Pc.afterPass : Signal → Pc
  | .cont => .work
  | .stop => .loopHead

/-- The entries that the scan has not decided on yet. -/
def Pc.pending : Pc → List Pid
  | .scanning _ entries => entries
  | .reading _ pid entries => pid :: entries
  | _ => []

namespace Pc

theorem pass_ne_reading (signal : Signal) (node : ℕ) (now : Timespec) (pid : Pid)
    (entries : List Pid) : pass signal node ≠ .reading now pid entries := by
  cases signal <;> simp [pass]

theorem afterPass_ne_reading (signal : Signal) (now : Timespec) (pid : Pid) (entries : List Pid) :
    afterPass signal ≠ .reading now pid entries := by
  cases signal <;> simp [afterPass]

@[simp] theorem pending_pass (signal : Signal) (node : ℕ) : (pass signal node).pending = [] := by
  cases signal <;> rfl

@[simp] theorem pending_afterPass (signal : Signal) : (afterPass signal).pending = [] := by
  cases signal <;> rfl

end Pc

/-- The limiter without clocks and usages: which processes are members, and where
it is. -/
structure View where
  filter : ProcessFilter
  os : Os
  members : List Pid
  pc : Pc

def System.view (s : System) : View := ⟨s.filter, s.os, s.group.memberPids, s.pc⟩

/-- All that one step can do to a view. -/
inductive Move (self : Pid) (v : View) : Event → View → Prop
  | env {event : Os.EnvEvent} {os : Os} (hself : event.Spares self)
      (hstep : v.os.envStep event = some os) : Move self v (.env event) { v with os := os }
  | openProc {a : Answer} {entries : List Pid} (hpc : v.pc = .beginUpdate)
      (hopen : v.os.opened v.filter a.listing = some entries) :
      Move self v (.limiter a) { v with members := [], pc := .scanning a.now entries }
  | closeProc {a : Answer} {now : Timespec} {pc : Pc} (hpc : v.pc = .scanning now [])
      (hnext : pc = .control ∨ pc = .loopHead) : Move self v (.limiter a) { v with pc := pc }
  | accept {a : Answer} {now : Timespec} {pid : Pid} {entries : List Pid}
      (hpc : v.pc = .scanning now (pid :: entries))
      (hpass : v.os.passes a.fuel v.filter pid = some true) :
      Move self v (.limiter a) { v with pc := .reading now pid entries }
  | refuse {a : Answer} {now : Timespec} {pid : Pid} {entries : List Pid}
      (hpc : v.pc = .scanning now (pid :: entries))
      (hpass : v.os.passes a.fuel v.filter pid = some false) :
      Move self v (.limiter a) { v with pc := .scanning now entries }
  | unreadable {a : Answer} {now : Timespec} {pid : Pid} {entries : List Pid}
      (hpc : v.pc = .reading now pid entries)
      (hread : v.os.readProcessInfo pid a.cputime a.command = none) :
      Move self v (.limiter a) { v with pc := .scanning now entries }
  | join {a : Answer} {now : Timespec} {pid : Pid} {entries : List Pid}
      (hpc : v.pc = .reading now pid entries) :
      Move self v (.limiter a) { v with members := v.members ++ [pid], pc := .scanning now entries }
  | quit {a : Answer} (hpc : v.pc = .loopHead) (hquit : v.os.quitFlag = true) :
      Move self v (.limiter a) { v with pc := .afterLoop }
  | again {a : Answer} (hpc : v.pc = .loopHead) :
      Move self v (.limiter a) { v with pc := .beginUpdate }
  | noMore {a : Answer} (hpc : v.pc = .control) (hempty : v.members = []) :
      Move self v (.limiter a) { v with pc := .afterLoop }
  | control {a : Answer} (hpc : v.pc = .control) :
      Move self v (.limiter a) { v with pc := .contPass 0 }
  | work {a : Answer} {pc : Pc} (hpc : v.pc = .work) (hnext : pc = .stopPass 0 ∨ pc = .loopHead) :
      Move self v (.limiter a) { v with pc := pc }
  | passDone {a : Answer} (signal : Signal) {node : ℕ} (hpc : v.pc = Pc.pass signal node)
      (hnode : v.members[node]? = none) :
      Move self v (.limiter a) { v with pc := Pc.afterPass signal }
  | delivered {a : Answer} (signal : Signal) {node : ℕ} {pid : Pid}
      (hpc : v.pc = Pc.pass signal node) (hnode : v.members[node]? = some pid)
      (hkill : v.os.killSucceeds pid = true) :
      Move self v (.limiter a)
        { v with os := v.os.deliver pid signal, pc := Pc.pass signal (node + 1) }
  | dropped {a : Answer} (signal : Signal) {node : ℕ} {pid : Pid}
      (hpc : v.pc = Pc.pass signal node) (hnode : v.members[node]? = some pid)
      (hkill : v.os.killSucceeds pid = false) :
      Move self v (.limiter a)
        { v with members := v.members.eraseIdx node, pc := Pc.pass signal node }
  | leave {a : Answer} (hpc : v.pc = .afterLoop) (hquit : v.os.quitFlag = false) :
      Move self v (.limiter a) { v with pc := .returned }
  | resumeAll {a : Answer} (hpc : v.pc = .afterLoop) :
      Move self v (.limiter a) { v with pc := .resume 0 }
  | resumeDone {a : Answer} {node : ℕ} (hpc : v.pc = .resume node)
      (hnode : v.members[node]? = none) : Move self v (.limiter a) { v with pc := .returned }
  | resumed {a : Answer} {node : ℕ} {pid : Pid} (hpc : v.pc = .resume node)
      (hnode : v.members[node]? = some pid) (hkill : v.os.killSucceeds pid = true) :
      Move self v (.limiter a) { v with os := v.os.deliver pid .cont, pc := .resume (node + 1) }
  | notResumed {a : Answer} {node : ℕ} {pid : Pid} (hpc : v.pc = .resume node)
      (hnode : v.members[node]? = some pid) (hkill : v.os.killSucceeds pid = false) :
      Move self v (.limiter a) { v with pc := .resume (node + 1) }

/-- The processes that are members or may still become members in this scan. -/
def System.candidates (s : System) : List Pid := s.group.memberPids ++ s.pc.pending

/-- What the group needs for its members to be the processes that were joined. -/
structure System.Grounded (s : System) : Prop where
  coherent : ProcessGroup.Coherent s.group
  target_pos : 0 < s.group.targetPid
  distinct : s.candidates.Nodup
  reading_pos : ∀ now pid entries, s.pc = .reading now pid entries → 0 < pid
  only : Os.readsOne s.filter → ∀ pid ∈ s.candidates, pid = s.group.targetPid

namespace System

variable {s t : System} {c : Setting} {a : Answer}

theorem targetPid_dropMember (g : ProcessGroup) (node : ℕ) :
    (g.dropMember node).targetPid = g.targetPid := by
  unfold ProcessGroup.dropMember
  split <;> rfl

theorem includeChildren_dropMember (g : ProcessGroup) (node : ℕ) :
    (g.dropMember node).includeChildren = g.includeChildren := by
  unfold ProcessGroup.dropMember
  split <;> rfl

/-- A step that keeps the target and adds no candidates keeps a coherent group grounded. -/
theorem Grounded.of_sublist (h : s.Grounded) (hc : ProcessGroup.Coherent t.group)
    (hf : t.filter = s.filter) (hs : t.candidates.Sublist s.candidates)
    (hr : ∀ now pid es, t.pc = .reading now pid es → 0 < pid) : t.Grounded := by
  have ht : t.group.targetPid = s.group.targetPid := congrArg ProcessFilter.pid hf
  refine ⟨hc, ht ▸ h.target_pos, h.distinct.sublist hs, hr, fun hone pid hpid => ?_⟩
  rw [ht]
  exact h.only (hf ▸ hone) pid (hs.subset hpid)

/-- Steps that touch neither the group nor the entries. -/
theorem Grounded.of_eq (h : s.Grounded) (hg : t.group = s.group)
    (hp : t.pc.pending.Sublist s.pc.pending) (hr : ∀ now pid es, t.pc ≠ .reading now pid es) :
    t.Grounded := by
  refine h.of_sublist (hg ▸ h.coherent) ?_ ?_ fun now pid es he => absurd he (hr now pid es)
  · rw [filter, filter, hg]
  · rw [candidates, candidates, hg]
    exact List.Sublist.append_left hp _

/-- A step of a signal pass is a move that keeps the group sound. -/
theorem passStep_move (signal : Signal) {node : ℕ} (h : s.Grounded)
    (hpc : s.pc = Pc.pass signal node) :
    Move c.self s.view (.limiter a)
        (s.passStep signal (Pc.pass signal) (Pc.afterPass signal) node).view ∧
      (s.passStep signal (Pc.pass signal) (Pc.afterPass signal) node).Grounded := by
  have hnode := s.group.getElem?_memberPids node
  unfold passStep
  cases hid : s.group.proclist[node]? with
  | none =>
    rw [hid] at hnode
    refine ⟨.passDone signal hpc hnode, h.of_eq rfl ?_ (Pc.afterPass_ne_reading signal)⟩
    simp
  | some id =>
    rw [hid] at hnode
    dsimp only
    by_cases hk : s.os.killSucceeds (s.group.records.pidOf id) = true
    · rw [if_pos hk]
      refine ⟨.delivered signal hpc hnode hk, h.of_eq rfl ?_ (Pc.pass_ne_reading signal _)⟩
      simp
    · rw [if_neg hk]
      have hmembers := ProcessGroup.memberPids_dropMember s.group node
      constructor
      · have hmove : Move c.self s.view (.limiter a) _ :=
          .dropped signal hpc hnode (Bool.not_eq_true _ ▸ hk)
        simpa only [view, filter, hmembers, targetPid_dropMember, includeChildren_dropMember]
          using hmove
      · refine h.of_sublist (h.coherent.dropMember node) ?_ ?_ fun now pid es he => ?_
        · simp only [filter, targetPid_dropMember, includeChildren_dropMember]
        · simp only [candidates, hmembers, Pc.pending_pass]
          exact (List.eraseIdx_sublist _ _).append (List.nil_sublist _)
        · exact absurd he (Pc.pass_ne_reading signal node now pid es)

/-- A step of the last loop changes the position and at most one process. -/
theorem resumeStep_move {node : ℕ} (h : s.Grounded) (hpc : s.pc = .resume node) :
    Move c.self s.view (.limiter a) (s.resumeStep node).view ∧ (s.resumeStep node).Grounded := by
  have hnode := s.group.getElem?_memberPids node
  unfold resumeStep
  cases hid : s.group.proclist[node]? with
  | none =>
    rw [hid] at hnode
    exact ⟨.resumeDone hpc hnode, h.of_eq rfl (List.nil_sublist _) (by simp)⟩
  | some id =>
    rw [hid] at hnode
    dsimp only
    by_cases hk : s.os.killSucceeds (s.group.records.pidOf id) = true
    · rw [if_pos hk]
      exact ⟨.resumed hpc hnode hk, h.of_eq rfl (List.nil_sublist _) (by simp)⟩
    · rw [if_neg hk]
      exact ⟨.notResumed hpc hnode (Bool.not_eq_true _ ▸ hk),
        h.of_eq rfl (List.nil_sublist _) (by simp)⟩

theorem targetPid_updateStep (dt : ℚ) (g : ProcessGroup) (tmp : Process) :
    (g.updateStep dt tmp).targetPid = g.targetPid ∧
      (g.updateStep dt tmp).includeChildren = g.includeChildren := by
  unfold ProcessGroup.updateStep
  split
  · exact ⟨rfl, rfl⟩
  · dsimp only; split_ifs <;> exact ⟨rfl, rfl⟩

theorem targetPid_stamp (now : Timespec) (g : ProcessGroup) :
    (ProcessGroup.stamp now g).targetPid = g.targetPid ∧
      (ProcessGroup.stamp now g).includeChildren = g.includeChildren := by
  unfold ProcessGroup.stamp
  split_ifs <;> exact ⟨rfl, rfl⟩

/-- The end of a scan. -/
theorem closeStep_move {now : Timespec} (h : s.Grounded) (hpc : s.pc = .scanning now [])
    (hs : s.limiterStep c a = some t) : Move c.self s.view (.limiter a) t.view ∧ t.Grounded := by
  simp only [limiterStep, hpc, Option.some.injEq] at hs
  subst hs
  have hmembers : (ProcessGroup.stamp now s.group).memberPids = s.group.memberPids := by
    simp [ProcessGroup.memberPids]
  obtain ⟨ht, hi⟩ := targetPid_stamp now s.group
  have hnext : (if s.inLoop then Pc.control else .loopHead) = .control ∨
      (if s.inLoop then Pc.control else .loopHead) = .loopHead := by
    cases s.inLoop <;> simp
  have hmove : Move c.self s.view (.limiter a) _ := .closeProc hpc hnext
  refine ⟨by simpa only [view, filter, hmembers, ht, hi] using hmove,
    h.of_sublist (h.coherent.stamp now) (by simp only [filter, ht, hi]) ?_ ?_⟩
  · have hpending : (if s.inLoop then Pc.control else .loopHead).pending = [] := by
      cases s.inLoop <;> rfl
    simp only [candidates, hmembers, hpending]
    exact (List.Sublist.refl _).append (List.nil_sublist _)
  · intro now' pid es he
    rcases hnext with hn | hn <;> rw [hn] at he <;> cases he

theorem passes_pos {os : Os} {fuel : ℕ} {f : ProcessFilter} {pid : Pid}
    (h : os.passes fuel f pid = some true) : Os.readsOne f ∨ 0 < pid := by
  by_contra hneg
  obtain ⟨hone, hpid⟩ := not_or.mp hneg
  simp [Os.passes, hone, not_lt.mp hpid] at h

/-- An entry that is passed over. -/
theorem Grounded.nextEntry {now : Timespec} {pid : Pid} {entries : List Pid} (h : s.Grounded)
    (hpc : s.pc.pending = pid :: entries) :
    ({ s with pc := .scanning now entries } : System).Grounded := by
  refine h.of_eq rfl ?_ (by simp)
  rw [hpc]
  exact List.sublist_cons_self _ _

/-- An entry whose record is to be read. -/
theorem Grounded.readEntry {now : Timespec} {pid : Pid} {entries : List Pid} (h : s.Grounded)
    (hpc : s.pc = .scanning now (pid :: entries)) (hpos : Os.readsOne s.filter ∨ 0 < pid) :
    ({ s with pc := .reading now pid entries } : System).Grounded := by
  refine h.of_sublist h.coherent rfl ?_ ?_
  · simp only [candidates, hpc]
    exact List.Sublist.refl _
  · intro now' pid' es he
    cases he
    rcases hpos with hone | hpos
    · have hmem : pid ∈ s.candidates := by simp [candidates, hpc, Pc.pending]
      rw [h.only hone pid hmem]
      exact h.target_pos
    · exact hpos

/-- An entry whose record has been read joins the members. -/
theorem Grounded.joinEntry {now : Timespec} {pid : Pid} {entries : List Pid} (h : s.Grounded)
    (hpc : s.pc = .reading now pid entries) {tmp : Process} (hpid : tmp.pid = pid) :
    let group := s.group.updateStep (timediffInMs now s.group.lastUpdate) tmp
    ({ s with group := group, pc := .scanning now entries } : System).Grounded ∧
      ({ s with group := group, pc := .scanning now entries } : System).view =
        { s.view with members := s.view.members ++ [pid], pc := .scanning now entries } := by
  have hcand : s.candidates = s.group.memberPids ++ pid :: entries := by
    rw [candidates, hpc, Pc.pending]
  have hfresh : tmp.pid ∉ s.group.memberPids := by
    rw [hpid]
    intro hmem
    have hnd := hcand ▸ h.distinct
    exact (List.nodup_append.mp hnd).2.2 pid hmem pid (by simp) rfl
  obtain ⟨hc, hm⟩ := h.coherent.updateStep (timediffInMs now s.group.lastUpdate)
    (by rw [hpid]; exact h.reading_pos now pid entries hpc) hfresh
  obtain ⟨ht, hi⟩ := targetPid_updateStep (timediffInMs now s.group.lastUpdate) s.group tmp
  rw [hpid] at hm
  refine ⟨h.of_sublist hc (by simp only [filter, ht, hi]) ?_ (by simp),
    by simp only [view, filter, hm, ht, hi]⟩
  rw [hcand, candidates, hm]
  simp [Pc.pending]

/-- The filter on one entry. -/
theorem filterStep_move {now : Timespec} {pid : Pid} {entries : List Pid} (h : s.Grounded)
    (hpc : s.pc = .scanning now (pid :: entries)) (hs : s.limiterStep c a = some t) :
    Move c.self s.view (.limiter a) t.view ∧ t.Grounded := by
  simp only [limiterStep, hpc, Option.map_eq_some_iff] at hs
  obtain ⟨ok, hpass, rfl⟩ := hs
  cases ok with
  | false => exact ⟨.refuse hpc hpass, h.nextEntry (by rw [hpc]; rfl)⟩
  | true => exact ⟨.accept hpc hpass, h.readEntry hpc (passes_pos hpass)⟩

theorem pid_of_readProcessInfo {os : Os} {pid : Pid} {cputime : ℚ} {command : List Char}
    {tmp : Process} (h : os.readProcessInfo pid cputime command = some tmp) : tmp.pid = pid := by
  unfold Os.readProcessInfo at h
  split at h
  · cases h
  · split_ifs at h
    cases h
    rfl

/-- The record of an admitted entry: a process that can be read joins the members. -/
theorem readStep_move {now : Timespec} {pid : Pid} {entries : List Pid} (h : s.Grounded)
    (hpc : s.pc = .reading now pid entries) (hs : s.limiterStep c a = some t) :
    Move c.self s.view (.limiter a) t.view ∧ t.Grounded := by
  simp only [limiterStep, hpc] at hs
  cases hread : s.os.readProcessInfo pid a.cputime a.command with
  | none =>
    rw [hread] at hs
    cases hs
    exact ⟨.unreadable hpc hread, h.nextEntry (by rw [hpc]; rfl)⟩
  | some tmp =>
    rw [hread] at hs
    cases hs
    obtain ⟨hground, hview⟩ := h.joinEntry hpc (pid_of_readProcessInfo hread)
    exact ⟨hview ▸ .join hpc, hground⟩

/-- The beginning of a scan clears the members and lists the entries. -/
theorem openStep_move (h : s.Grounded) (hpc : s.pc = .beginUpdate)
    (hs : s.limiterStep c a = some t) : Move c.self s.view (.limiter a) t.view ∧ t.Grounded := by
  simp only [limiterStep, hpc, Option.map_eq_some_iff] at hs
  obtain ⟨entries, hopen, rfl⟩ := hs
  refine ⟨.openProc hpc hopen, ⟨.clearMembers h.coherent.table, h.target_pos, ?_, by simp, ?_⟩⟩
  · unfold Os.opened at hopen
    split_ifs at hopen with hfail hone hlist
    · cases hopen
      simp [candidates, ProcessGroup.clearMembers, ProcessGroup.memberPids, Pc.pending]
    · cases hopen
      simp [candidates, ProcessGroup.clearMembers, ProcessGroup.memberPids, Pc.pending]
    · cases hopen
      simpa [candidates, ProcessGroup.clearMembers, ProcessGroup.memberPids, Pc.pending] using
        hlist.1
  · intro hone pid hpid
    have hone' : Os.readsOne s.filter := hone
    simp only [Os.opened, if_pos hone'] at hopen
    have hmem : pid ∈ entries := by
      simpa [candidates, ProcessGroup.clearMembers, ProcessGroup.memberPids, Pc.pending] using hpid
    split_ifs at hopen
    · cases hopen
      simp at hmem
    · cases hopen
      exact List.mem_singleton.mp hmem

/-- Every step is a move, and keeps the group grounded. -/
theorem step_move {e : Event} (h : s.Grounded) (hs : s.step c e = some t) :
    Move c.self s.view e t.view ∧ t.Grounded := by
  cases e with
  | env event =>
    simp only [step] at hs
    split_ifs at hs with hself
    obtain ⟨os, hos, rfl⟩ := Option.map_eq_some_iff.mp hs
    exact ⟨.env hself hos, ⟨h.coherent, h.target_pos, h.distinct, h.reading_pos, h.only⟩⟩
  | limiter a =>
    change s.limiterStep c a = some t at hs
    cases hpc : s.pc with
    | beginUpdate => exact openStep_move h hpc hs
    | scanning now entries =>
      cases entries with
      | nil => exact closeStep_move h hpc hs
      | cons pid entries => exact filterStep_move h hpc hs
    | reading now pid entries => exact readStep_move h hpc hs
    | loopHead =>
      simp only [limiterStep, hpc, Option.some.injEq] at hs
      subst hs
      split_ifs with hq
      · exact ⟨.quit hpc hq, h.of_eq rfl (List.nil_sublist _) (by simp)⟩
      · exact ⟨.again hpc, h.of_eq rfl (List.nil_sublist _) (by simp)⟩
    | control =>
      simp only [limiterStep, hpc, Option.some.injEq] at hs
      subst hs
      split_ifs with hempty
      · have hnone : s.group.memberPids = [] := by
          simpa [ProcessGroup.memberPids] using List.length_eq_zero_iff.mp hempty
        exact ⟨.noMore hpc hnone, h.of_eq rfl (List.nil_sublist _) (by simp)⟩
      · exact ⟨.control hpc, h.of_eq rfl (List.nil_sublist _) (by simp)⟩
    | contPass node =>
      simp only [limiterStep, hpc, Option.some.injEq] at hs
      exact hs ▸ passStep_move .cont h hpc
    | work =>
      simp only [limiterStep, hpc, Option.some.injEq] at hs
      subst hs
      split_ifs with hsleep
      · exact ⟨.work hpc (Or.inl rfl), h.of_eq rfl (List.nil_sublist _) (by simp)⟩
      · exact ⟨.work hpc (Or.inr rfl), h.of_eq rfl (List.nil_sublist _) (by simp)⟩
    | stopPass node =>
      simp only [limiterStep, hpc, Option.some.injEq] at hs
      exact hs ▸ passStep_move .stop h hpc
    | afterLoop =>
      simp only [limiterStep, hpc, Option.some.injEq] at hs
      subst hs
      split_ifs with hq
      · exact ⟨.resumeAll hpc, h.of_eq rfl (List.nil_sublist _) (by simp)⟩
      · exact ⟨.leave hpc (Bool.not_eq_true _ ▸ hq), h.of_eq rfl (List.nil_sublist _) (by simp)⟩
    | resume node =>
      simp only [limiterStep, hpc, Option.some.injEq] at hs
      exact hs ▸ resumeStep_move h hpc
    | returned => simp [limiterStep, hpc] at hs

theorem start_grounded (os : Os) {target : Pid} (htarget : 0 < target) (includeChildren : Bool)
    (now : Timespec) (timeSlot : ℚ) : (start os target includeChildren now timeSlot).Grounded where
  coherent := ProcessGroup.Coherent.clearMembers
    (ProcessGroup.tableSound_fresh target includeChildren now)
  target_pos := htarget
  distinct := List.nodup_nil
  reading_pos := by simp [start]
  only := by simp [start, candidates, ProcessGroup.fresh, ProcessGroup.memberPids, Pc.pending]

end System

end CpuLimit
