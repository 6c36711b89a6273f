import CpuLimit.Limiter
import CpuLimit.ProcessTree

/-!
# The limiter in the tree

The only guard of `main` compares the target with its own `pid`. A process that
is not above the limiter when `limit_process` begins never gets above it later,
except process 1. So a scan of the tree takes the limiter in only if children are
limited too and the target is process 1 or one of the limiter's own ancestors.
-/
namespace CpuLimit

open Library

/-- The ways in which `main` finds a target. -/
inductive StartMode
  | pid
  | exe
  | command
  deriving DecidableEq

/-- What `main` knows when process `self` calls `limit_process`. With a `pid` or a
name it has compared the target with itself. For a command it has forked the
target and then the limiter from the same process, which has not waited for the
target in between; the tree may change before and after the second fork. -/
inductive Launch (os : Os) (self : Pid) : StartMode → Pid → Prop
  | pid {target pidMax : Pid} (hrange : ¬ (target ≤ 1 ∨ pidMax ≤ target)) (hother : target ≠ self) :
      Launch os self .pid target
  | exe {target : Pid} (hfound : 0 < target) (hother : target ≠ self) : Launch os self .exe target
  | command {main target : Pid} {earlier : Os} {childStart limiterStart : Timespec}
      {childPermitted limiterPermitted : Bool} {between after : List Os.EnvEvent}
      (hroot : earlier.Rooted)
      (hrun : Runs.runPartial Os.envStep earlier
        (.fork main target childStart childPermitted :: between ++
          .fork main self limiterStart limiterPermitted :: after) = some os)
      (hmain : ∀ e ∈ between, e ≠ .exit main ∧ e ≠ .reap target)
      (hself : ∀ e ∈ after, e ≠ .exit self) : Launch os self .command target

namespace Os

variable {os os' : Os}

theorem proc_fork {parent child : Pid} {startTime : Timespec} {permitted : Bool}
    (h : os.envStep (.fork parent child startTime permitted) = some os') :
    os'.proc child = some (newborn parent child startTime permitted) := by
  obtain ⟨⟨-, hfree, -⟩, -, hproc⟩ := envStep_spec h
  rw [hproc, hfree]
  simp [EnvEvent.after]

/-- Above a forked process are its parent and what is above that. -/
theorem ancestor_of_fork {parent child a : Pid} {startTime : Timespec} {permitted : Bool}
    (h : os.envStep (.fork parent child startTime permitted) = some os')
    (ha : ParentTree.Ancestor os'.parentOf a child) :
    a = parent ∨ ParentTree.Ancestor os'.parentOf a parent := by
  obtain ⟨b, hb, hba⟩ := ParentTree.ancestor_iff.mp ha
  obtain ⟨-, p, hp, rfl⟩ := parentOf_eq_some.mp hb
  rw [proc_fork h] at hp
  cases hp
  exact hba.imp_left Eq.symm

theorem isSome_of_run {events : List EnvEvent} (h : Runs.runPartial envStep os events = some os')
    {pid : Pid} (hp : (os.proc pid).isSome) (hreap : ∀ e ∈ events, e ≠ .reap pid) :
    (os'.proc pid).isSome := by
  induction events generalizing os with
  | nil =>
    cases h
    exact hp
  | cons event events ih =>
    obtain ⟨mid, hmid, hrest⟩ := (Runs.runPartial_cons_eq_some _).mp h
    obtain ⟨p, hp⟩ := Option.isSome_iff_exists.mp hp
    obtain ⟨p', hp', -⟩ := envStep_forth hmid hp (hreap event (by simp))
    exact ih hrest (by simp [hp']) fun e he => hreap e (by simp [he])

theorem alive_isSome {pid : Pid} (h : os.alive pid = true) : (os.proc pid).isSome := by
  obtain ⟨p, hp, -⟩ := alive_iff.mp h
  simp [hp]

end Os

namespace Launch

variable {os : Os} {self target : Pid} {mode : StartMode}

/-- In command mode the target is a sibling of the limiter, not an ancestor. -/
theorem command_apart (h : Launch os self .command target) : 1 < target ∧ target ≠ self ∧
    ¬ ParentTree.Ancestor os.parentOf target self := by
  cases h with
  | @command main _ earlier _ _ _ _ between after hroot hrun hmain hself =>
    rw [List.cons_append, Runs.runPartial_cons_eq_some] at hrun
    obtain ⟨os1, h1, hrun⟩ := hrun
    obtain ⟨os2, h2, hrun⟩ := (Runs.runPartial_append_eq_some _).mp hrun
    obtain ⟨os3, h3, h4⟩ := (Runs.runPartial_cons_eq_some _).mp hrun
    obtain ⟨hmain0, hnone, hgt⟩ := (Os.envStep_spec h1).1
    obtain ⟨hmain2, hfree, -⟩ := (Os.envStep_spec h3).1
    have hmain1 := Os.envStep_alive h1 hmain0 (by simp)
    obtain ⟨hroot2, -, hanc2⟩ := Os.ancestor_of_run (hroot.envStep h1) h2 hmain1
      fun e he => (hmain e he).1
    -- the target is still there when the limiter is forked, so their pids differ
    have htarget2 : (os2.proc target).isSome :=
      Os.isSome_of_run h2 (by simp [Os.proc_fork h1]) fun e he => (hmain e he).2
    have hne : target ≠ self := by
      rintro rfl
      simp [hfree] at htarget2
    -- above the limiter is what was alive before the target was forked
    have hnot : ¬ earlier.alive target = true := by
      intro ha
      simpa [hnone] using Os.alive_isSome ha
    have habove : ¬ ParentTree.Ancestor os3.parentOf target self := by
      intro hanc
      rcases Os.ancestor_of_fork h3 hanc with rfl | hanc
      · exact hnot hmain0
      · have hnew := not_le.mpr hgt
        have hanc := (Os.ancestor_of_envStep hroot2 h3 hmain2 hanc).resolve_left hnew
        have hanc := (hanc2 target hanc).resolve_left hnew
        have hanc := (Os.ancestor_of_envStep hroot h1 hmain0 hanc).resolve_left hnew
        exact hnot ((Os.alive_of_ancestor hroot hanc).resolve_left hnew)
    have hself3 : os3.alive self = true := Os.alive_iff.mpr ⟨_, Os.proc_fork h3, rfl⟩
    obtain ⟨-, -, hanc4⟩ := Os.ancestor_of_run (hroot2.envStep h3) h4 hself3 hself
    refine ⟨hgt, hne, fun hanc => ?_⟩
    rcases hanc4 target hanc with hle | hanc
    · exact absurd hgt (not_lt.mpr hle)
    · exact habove hanc

/-- Whatever the mode, the target is some other process. -/
theorem target_spec (h : Launch os self mode target) : 0 < target ∧ target ≠ self := by
  cases h with
  | pid hrange hother =>
    exact ⟨lt_trans zero_lt_one (not_le.mp fun hle => hrange (Or.inl hle)), hother⟩
  | exe hfound hother => exact ⟨hfound, hother⟩
  | command hroot hrun hmain hself =>
    obtain ⟨hgt, hne, -⟩ := command_apart (.command hroot hrun hmain hself)
    exact ⟨lt_trans zero_lt_one hgt, hne⟩

end Launch

/-- The scan of a tree takes the limiter in. -/
def TakesIn (os : Os) (filter : ProcessFilter) (self : Pid) : Prop :=
  filter.includeChildren = true ∧
    (filter.pid = 1 ∧ 1 < self ∨ ParentTree.Ancestor os.parentOf filter.pid self)

/-- The limiter lives, has no new ancestors since the tree was `first`, and is
neither a member nor about to become one. -/
structure Apart (first : Os) (own : Pid) (v : View) : Prop where
  rooted : v.os.Rooted
  alive : v.os.alive own = true
  old : ∀ a, ParentTree.Ancestor v.os.parentOf a own →
    a ≤ 1 ∨ ParentTree.Ancestor first.parentOf a own
  members : own ∉ v.members
  reading : ∀ now pid entries, v.pc = .reading now pid entries → pid ≠ own

namespace Os

theorem includeChildren_of_not_readsOne {filter : ProcessFilter} (hpos : 0 < filter.pid)
    (hone : ¬ readsOne filter) : filter.includeChildren = true := by
  by_contra hno
  exact hone ⟨hpos.ne', Bool.not_eq_true _ ▸ hno⟩

variable (os : Os)

theorem parentOf_deliver (pid : Pid) (signal : Signal) :
    (os.deliver pid signal).parentOf = os.parentOf := by
  funext q
  rw [parentOf, parentOf, proc_deliver, Option.map_map]
  congr 2
  funext p
  dsimp only [Function.comp_apply]
  split_ifs <;> rfl

theorem alive_deliver (pid : Pid) (signal : Signal) (q : Pid) :
    (os.deliver pid signal).alive q = os.alive q := by
  rw [alive, alive, proc_deliver, Option.any_map]
  congr 1
  funext p
  split_ifs <;> rfl

variable {os}

theorem Rooted.deliver (h : os.Rooted) (pid : Pid) (signal : Signal) :
    (os.deliver pid signal).Rooted := by
  intro q p' hp'
  rw [proc_deliver, Option.map_eq_some_iff] at hp'
  obtain ⟨p, hp, rfl⟩ := hp'
  have hppid : (if q = pid then { p with lastSignal := some signal } else p).ppid = p.ppid := by
    split_ifs <;> rfl
  rw [hppid, alive_deliver]
  exact h q p hp

end Os

namespace Apart

variable {first : Os} {own : Pid} {v w : View} {e : Event}

theorem deliver (h : Apart first own v) (pid : Pid) (signal : Signal) {pc : Pc}
    (hpc : ∀ now pid entries, pc ≠ .reading now pid entries) :
    Apart first own { v with os := v.os.deliver pid signal, pc := pc } := by
  refine ⟨h.rooted.deliver pid signal, ?_, ?_, h.members,
    fun now q es he => absurd he (hpc now q es)⟩
  · dsimp only
    rw [Os.alive_deliver]
    exact h.alive
  · dsimp only
    rw [Os.parentOf_deliver]
    exact h.old

/-- Steps that neither touch the system nor read a record of the directory. -/
theorem of_pc (h : Apart first own v) {members : List Pid} (hm : ∀ pid ∈ members, pid ∈ v.members)
    {pc : Pc} (hpc : ∀ now pid entries, pc ≠ .reading now pid entries) :
    Apart first own { v with members := members, pc := pc } :=
  ⟨h.rooted, h.alive, h.old, fun hs => h.members (hm own hs),
    fun now q es he => absurd he (hpc now q es)⟩

theorem env (h : Apart first own v) {event : Os.EnvEvent} {os : Os} (hself : event.Spares own)
    (hstep : v.os.envStep event = some os) : Apart first own { v with os := os } := by
  have hexit : event ≠ .exit own := by
    rintro rfl
    exact hself rfl
  refine ⟨h.rooted.envStep hstep, Os.envStep_alive hstep h.alive hexit, fun a ha => ?_,
    h.members, h.reading⟩
  rcases Os.ancestor_of_envStep h.rooted hstep h.alive ha with hle | ha
  · exact Or.inl hle
  · exact h.old a ha

/-- Neither process 1 nor what is above the limiter is the target. -/
theorem not_above (h : Apart first own v) (hout : ¬ TakesIn first v.filter own)
    (hpos : 0 < v.filter.pid) (hchildren : v.filter.includeChildren = true) (hown : 1 < own) :
    v.filter.pid ≠ 1 ∧ ¬ ParentTree.Ancestor v.os.parentOf v.filter.pid own := by
  have hone : v.filter.pid ≠ 1 := fun hone => hout ⟨hchildren, Or.inl ⟨hone, hown⟩⟩
  refine ⟨hone, fun hanc => ?_⟩
  rcases h.old _ hanc with hle | hanc
  · exact hone (le_antisymm hle hpos)
  · exact hout ⟨hchildren, Or.inr hanc⟩

/-- The filter turns the limiter away. -/
theorem accept (h : Apart first own v) (hout : ¬ TakesIn first v.filter own)
    (hpos : 0 < v.filter.pid) (hne : v.filter.pid ≠ own)
    (honly : Os.readsOne v.filter → ∀ pid ∈ v.pc.pending, pid = v.filter.pid)
    {a : Answer} {now : Timespec} {pid : Pid} {entries : List Pid}
    (hpc : v.pc = .scanning now (pid :: entries))
    (hpass : v.os.passes a.fuel v.filter pid = some true) : pid ≠ own := by
  rintro rfl
  by_cases hone : Os.readsOne v.filter
  · exact hne (honly hone pid (by simp [hpc, Pc.pending])).symm
  · have hchildren := Os.includeChildren_of_not_readsOne hpos hone
    by_cases hle : pid ≤ 0
    · simp [Os.passes, hone, hle] at hpass
    · rw [Os.passes, if_neg hone, if_neg hle, if_pos ⟨hpos.ne', hne⟩] at hpass
      by_cases hgt : 1 < pid
      · obtain ⟨hinit, hanc⟩ := h.not_above hout hpos hchildren hgt
        exact (Os.isChildOf_sound hpass).elim hinit hanc
      · simp [Os.isChildOf, not_lt.mp hgt] at hpass

theorem move (h : Apart first own v) (hout : ¬ TakesIn first v.filter own)
    (hpos : 0 < v.filter.pid) (hne : v.filter.pid ≠ own)
    (honly : Os.readsOne v.filter → ∀ pid ∈ v.pc.pending, pid = v.filter.pid)
    (hm : Move own v e w) : Apart first own w := by
  cases hm with
  | env hself hstep => exact h.env hself hstep
  | accept hpc hpass =>
    refine ⟨h.rooted, h.alive, h.old, h.members, fun now pid es he => ?_⟩
    cases he
    exact h.accept hout hpos hne honly hpc hpass
  | @join a now pid entries hpc =>
    refine ⟨h.rooted, h.alive, h.old, fun hs => ?_, by simp⟩
    rcases List.mem_append.mp hs with hs | hs
    · exact h.members hs
    · exact h.reading now pid entries hpc (List.mem_singleton.mp hs).symm
  | closeProc hpc hnext =>
    rcases hnext with rfl | rfl <;> exact h.of_pc (fun _ => id) (by simp)
  | work hpc hnext =>
    rcases hnext with rfl | rfl <;> exact h.of_pc (fun _ => id) (by simp)
  | passDone signal hpc hnode =>
    exact h.of_pc (fun _ => id) (Pc.afterPass_ne_reading signal)
  | delivered signal hpc hnode hkill => exact h.deliver _ signal (Pc.pass_ne_reading signal _)
  | dropped signal hpc hnode hkill =>
    exact h.of_pc (fun _ => List.mem_of_mem_eraseIdx) (Pc.pass_ne_reading signal _)
  | resumed hpc hnode hkill => exact h.deliver _ .cont (by simp)
  | openProc hpc hopen => exact h.of_pc (by simp) (by simp)
  | refuse hpc hpass => exact h.of_pc (fun _ => id) (by simp)
  | unreadable hpc hread => exact h.of_pc (fun _ => id) (by simp)
  | quit hpc hquit => exact h.of_pc (fun _ => id) (by simp)
  | again hpc => exact h.of_pc (fun _ => id) (by simp)
  | noMore hpc hempty => exact h.of_pc (fun _ => id) (by simp)
  | control hpc => exact h.of_pc (fun _ => id) (by simp)
  | leave hpc hquit => exact h.of_pc (fun _ => id) (by simp)
  | resumeAll hpc => exact h.of_pc (fun _ => id) (by simp)
  | resumeDone hpc hnode => exact h.of_pc (fun _ => id) (by simp)
  | notResumed hpc hnode hkill => exact h.of_pc (fun _ => id) (by simp)

end Apart

/-! ## Runs -/

theorem Move.filter_eq {own : Pid} {v w : View} {e : Event} (h : Move own v e w) :
    w.filter = v.filter := by
  cases h <;> rfl

/-- The invariant of a run that keeps the limiter out of its group. -/
structure System.KeepsApart (own : Pid) (first : Os) (filter : ProcessFilter) (s : System) :
    Prop where
  grounded : s.Grounded
  filter_eq : s.filter = filter
  apart : Apart first own s.view

namespace System

variable {c : Setting} {s t : System} {e : Event} {os : Os} {target : Pid}

theorem KeepsApart.step {filter : ProcessFilter} (hout : ¬ TakesIn os filter c.self)
    (hne : filter.pid ≠ c.self) (h : KeepsApart c.self os filter s) (hs : s.step c e = some t) :
    KeepsApart c.self os filter t := by
  obtain ⟨hm, hg⟩ := step_move h.grounded hs
  obtain ⟨hground, rfl, hapart⟩ := h
  have honly : Os.readsOne s.filter → ∀ pid ∈ s.pc.pending, pid = s.filter.pid :=
    fun hone pid hpid => hground.only hone pid (List.mem_append_right _ hpid)
  exact ⟨hg, hm.filter_eq, hapart.move hout hground.target_pos hne honly hm⟩

theorem KeepsApart.start (hroot : os.Rooted) (hself : os.alive c.self = true) (htarget : 0 < target)
    (includeChildren : Bool) (now : Timespec) (timeSlot : ℚ) :
    KeepsApart c.self os ⟨target, includeChildren⟩
      (start os target includeChildren now timeSlot) := by
  refine ⟨start_grounded os htarget includeChildren now timeSlot, rfl, hroot, hself,
    fun a ha => Or.inr ha, ?_, ?_⟩
  · simp [System.start, view, ProcessGroup.fresh, ProcessGroup.memberPids]
  · simp [System.start, view]

/-! The three ways in which an entry of the directory is done with. -/

theorem KeepsApart.nextEntry {own : Pid} {filter : ProcessFilter} (h : KeepsApart own os filter s)
    {now : Timespec} {pid : Pid} {entries : List Pid} (hpc : s.pc.pending = pid :: entries) :
    KeepsApart own os filter { s with pc := .scanning now entries } :=
  ⟨h.grounded.nextEntry hpc, h.filter_eq, h.apart.of_pc (fun _ => id) (by simp)⟩

theorem KeepsApart.readEntry {own : Pid} {filter : ProcessFilter} (h : KeepsApart own os filter s)
    {now : Timespec} {pid : Pid} {entries : List Pid} (hpc : s.pc = .scanning now (pid :: entries))
    (hpos : Os.readsOne s.filter ∨ 0 < pid) (hne : pid ≠ own) :
    KeepsApart own os filter { s with pc := .reading now pid entries } := by
  refine ⟨h.grounded.readEntry hpc hpos, h.filter_eq, h.apart.rooted, h.apart.alive, h.apart.old,
    h.apart.members, fun now' pid' es he => ?_⟩
  cases he
  exact hne

theorem KeepsApart.joinEntry {own : Pid} {filter : ProcessFilter} (h : KeepsApart own os filter s)
    {now : Timespec} {pid : Pid} {entries : List Pid} (hpc : s.pc = .reading now pid entries)
    {tmp : Process} (hpid : tmp.pid = pid) :
    KeepsApart own os filter { s with
      group := s.group.updateStep (timediffInMs now s.group.lastUpdate) tmp
      pc := .scanning now entries } := by
  obtain ⟨hground, hview⟩ := h.grounded.joinEntry hpc hpid
  refine ⟨hground, (congrArg View.filter hview).trans h.filter_eq, ?_⟩
  rw [hview]
  refine ⟨h.apart.rooted, h.apart.alive, h.apart.old, fun hs => ?_, by simp⟩
  rcases List.mem_append.mp hs with hs | hs
  · exact h.apart.members hs
  · exact h.apart.reading now pid entries hpc (List.mem_singleton.mp hs).symm

end System

end CpuLimit
