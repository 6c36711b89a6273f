import CpuLimit.FileAccess
import CpuLimit.SelfLimit

/-!
# Can the limiter stop itself

The walks of `is_child_of` from the limiter, one access at a time. They find no
process that is not above the limiter, unless they are led astray: by a name that
imitates another parent, or by a new process under the `pid` that a walk has arrived
at. Otherwise the limiter stays out of its own group in every run if and only if the
tree in which `limit_process` begins does not take it in.
-/
namespace CpuLimit

open Library

/-- `getppid_of` leads from a process that is not below the target to another one,
unless a name imitates a parent. -/
theorem getppidOf_clear {os : Os} {target childPid : Pid} (htarget : 1 < target)
    (hgt : 1 < childPid) (hclear : ¬ ParentTree.Ancestor os.parentOf target childPid)
    {record : Option StatRecord} (hshows : os.showsStat childPid record = true)
    (hplain : ∀ r, record = some r → ¬ r.Imitates) :
    getppidOf childPid (record.map StatRecord.line) ≠ target ∧
      ¬ ParentTree.Ancestor os.parentOf target
        (getppidOf childPid (record.map StatRecord.line)) := by
  by_cases hle : getppidOf childPid (record.map StatRecord.line) ≤ 1
  · exact ⟨fun he => absurd htarget (not_lt.mpr (he ▸ hle)),
      ParentTree.not_ancestor_of_root (Os.parentOf_of_le hle)⟩
  cases record with
  | none =>
    have hfail : getppidOf childPid none = -1 := by simp [getppidOf]
    rw [Option.map_none, hfail] at hle
    exact absurd (by decide) hle
  | some r =>
    cases hp : os.proc childPid with
    | none => simp [Os.showsStat, hp] at hshows
    | some p =>
      simp only [Os.showsStat, hp, Bool.and_eq_true, decide_eq_true_eq] at hshows
      obtain ⟨-, rfl, hppid, -⟩ := hshows
      rw [Option.map_some] at hle ⊢
      have hshown : getppidOf r.pid (some r.line) = r.ppid := by
        by_contra hne
        exact hplain r rfl ⟨not_le.mp hle, hne⟩
      have hlink : os.parentOf r.pid = some r.ppid :=
        Os.parentOf_eq_some.mpr ⟨hgt, p, hp, hppid.symm⟩
      rw [hshown]
      exact ⟨fun he => hclear (.single (he ▸ hlink)), fun hanc => hclear (.head hlink hanc)⟩

/-- A walk from the entry `pid`. One from the limiter has not met the target and will
not meet it in the tree as it is. -/
structure Walking (own : Pid) (s : System) (pid : Pid) (access : Access) : Prop where
  entry : 1 < pid
  target : 1 < s.filter.pid
  includeChildren : s.filter.includeChildren = true
  arrived : ∀ parentStart childPid, access = .getppid parentStart childPid → 1 < childPid
  clear : pid = own → ∀ childPid, access.childPid = some childPid →
    childPid ≠ s.filter.pid ∧ ¬ ParentTree.Ancestor s.os.parentOf s.filter.pid childPid

namespace Stepwise

/-- The invariant of a run that keeps the limiter out of its group. -/
structure KeepsApart (own : Pid) (first : Os) (filter : ProcessFilter) (s : Stepwise) : Prop where
  system : System.KeepsApart own first filter s.system
  walking : ∀ access now pid entries, s.access = some access →
    s.system.pc = .scanning now (pid :: entries) → Walking own s.system pid access

namespace KeepsApart

variable {own : Pid} {first : Os} {filter : ProcessFilter} {s t : Stepwise}

/-- A state in which no access is to come. -/
theorem of_system {t : System} (h : System.KeepsApart own first filter t) :
    KeepsApart own first filter ⟨t, none⟩ :=
  ⟨h, fun access now pid entries he => by cases he⟩

/-- The next access of the same walk. -/
theorem of_walking (h : KeepsApart own first filter s) {now : Timespec} {pid : Pid}
    {entries : List Pid} (hpc : s.system.pc = .scanning now (pid :: entries)) {access : Access}
    (hwalking : Walking own s.system pid access) :
    KeepsApart own first filter ⟨s.system, some access⟩ := by
  refine ⟨h.system, fun access' now' pid' entries' he hpc' => ?_⟩
  cases he
  cases hpc.symm.trans hpc'
  exact hwalking

theorem env (h : KeepsApart own first filter s) {event : Os.EnvEvent} {os : Os}
    (hsystem : System.KeepsApart own first filter { s.system with os := os })
    (hstep : s.system.os.envStep event = some os) (hplain : s.Plain own (.env event) t) :
    KeepsApart own first filter ⟨{ s.system with os := os }, s.access⟩ := by
  refine ⟨hsystem, fun access now pid entries haccess hpc => ?_⟩
  obtain ⟨hentry, htarget, hchildren, harrived, hclear⟩ :=
    h.walking access now pid entries haccess hpc
  refine ⟨hentry, htarget, hchildren, harrived, ?_⟩
  rintro rfl childPid hchild
  obtain ⟨hne, hanc⟩ := hclear rfl childPid hchild
  refine ⟨hne, fun hanc' => ?_⟩
  -- the `pid` that the walk has arrived at is not given to a new process
  have hfork : ∀ parent startTime permitted,
      event ≠ .fork parent childPid startTime permitted := by
    rintro parent startTime permitted rfl
    refine hplain access ?_ hchild
    have hpc' : s.system.pc = .scanning now (pid :: entries) := hpc
    simp only [walkOf, hpc', if_true]
    exact haccess
  rcases Os.ancestor_of_envStep_of_ne_fork h.system.apart.rooted hstep hfork hanc' with hle | hanc'
  · exact absurd htarget (not_lt.mpr hle)
  · exact hanc hanc'

/-- The tests before the first access. -/
theorem entryStep (h : KeepsApart own first filter s) (hout : ¬ TakesIn first filter own)
    (hne : filter.pid ≠ own) {now : Timespec} {pid : Pid} {entries : List Pid}
    (hpc : s.system.pc = .scanning now (pid :: entries)) :
    KeepsApart own first filter (s.entryStep now pid entries) := by
  obtain ⟨hground, rfl, hapart⟩ := h.system
  have hnext : KeepsApart own first s.system.filter (s.nextEntry now entries) :=
    of_system (h.system.nextEntry (by rw [hpc]; rfl))
  have hread : (Os.readsOne s.system.filter ∨ 0 < pid) → pid ≠ own →
      KeepsApart own first s.system.filter (s.readEntry now pid entries) := fun hpos hpid =>
    of_system (h.system.readEntry hpc hpos hpid)
  have hpos : 0 < s.system.filter.pid := hground.target_pos
  unfold Stepwise.entryStep
  by_cases hone : Os.readsOne s.system.filter
  · rw [if_pos hone]
    have honly : pid = s.system.filter.pid :=
      hground.only hone pid (by simp [System.candidates, hpc, Pc.pending])
    exact hread (Or.inl hone) (honly ▸ hne)
  rw [if_neg hone]
  have hchildren := Os.includeChildren_of_not_readsOne hpos hone
  by_cases hle : pid ≤ 0
  · rw [if_pos hle]
    exact hnext
  rw [if_neg hle]
  by_cases hother : s.system.filter.pid ≠ 0 ∧ s.system.filter.pid ≠ pid
  · rw [if_pos hother]
    by_cases hguard : pid ≤ 1 ∨ s.system.filter.pid ≤ 0 ∨ pid = s.system.filter.pid
    · rw [if_pos hguard]
      exact hnext
    rw [if_neg hguard]
    have hentry : 1 < pid := not_le.mp fun hle => hguard (Or.inl hle)
    by_cases hinit : s.system.filter.pid = 1
    · rw [if_pos hinit]
      refine hread (Or.inr (not_le.mp hle)) ?_
      rintro rfl
      exact (hapart.not_above hout hpos hchildren hentry).1 hinit
    · rw [if_neg hinit]
      refine h.of_walking hpc ⟨hentry, lt_of_le_of_ne hpos (Ne.symm hinit), hchildren, ?_, ?_⟩
      · rintro parentStart childPid ⟨⟩
      · rintro - childPid ⟨⟩
  · rw [if_neg hother]
    have hsame : pid = s.system.filter.pid := by
      by_contra hdiff
      exact hother ⟨hpos.ne', Ne.symm hdiff⟩
    exact hread (Or.inr (not_le.mp hle)) (hsame ▸ hne)

/-- The accesses of a walk: one from the limiter does not find the target. -/
theorem walkStep (h : KeepsApart own first filter s) (hout : ¬ TakesIn first filter own)
    (hne : filter.pid ≠ own) {now : Timespec} {pid : Pid} {entries : List Pid}
    (hpc : s.system.pc = .scanning now (pid :: entries)) {k : Contents} {access : Access}
    (haccess : s.access = some access) (hplain : s.Plain own (.limiter k) t)
    (hs : s.walkStep k now pid entries access = some t) : KeepsApart own first filter t := by
  obtain ⟨hground, rfl, hapart⟩ := h.system
  have hnext : KeepsApart own first s.system.filter (s.nextEntry now entries) :=
    of_system (h.system.nextEntry (by rw [hpc]; rfl))
  obtain ⟨hentry, htarget, hchildren, harrived, hclear⟩ :=
    h.walking access now pid entries haccess hpc
  cases access with
  | parentStart =>
    cases hs
    refine h.of_walking hpc ⟨hentry, htarget, hchildren, ?_, ?_⟩
    · rintro parentStart childPid ⟨⟩
    · rintro rfl childPid ⟨⟩
      exact ⟨hne.symm, (hapart.not_above hout hground.target_pos hchildren hentry).2⟩
  | childStart parentStart childPid =>
    simp only [Stepwise.walkStep, Option.some.injEq] at hs
    subst hs
    by_cases hle : childPid ≤ 1
    · rw [if_pos hle]
      exact hnext
    rw [if_neg hle]
    by_cases hstart : s.system.os.startedBefore childPid parentStart = true
    · rw [if_pos hstart]
      exact hnext
    · rw [if_neg hstart]
      refine h.of_walking hpc ⟨hentry, htarget, hchildren, ?_, ?_⟩
      · rintro _ _ ⟨⟩
        exact not_le.mp hle
      · rintro rfl _ ⟨⟩
        exact hclear rfl childPid rfl
  | getppid parentStart childPid =>
    simp only [Stepwise.walkStep] at hs
    have hfound : s.system.os.showsStat childPid k.record = true → pid = own →
        getppidOf childPid (k.record.map StatRecord.line) ≠ s.system.filter.pid ∧
          ¬ ParentTree.Ancestor s.system.os.parentOf s.system.filter.pid
            (getppidOf childPid (k.record.map StatRecord.line)) := by
      rintro hshows rfl
      refine getppidOf_clear htarget (harrived _ _ rfl) (hclear rfl childPid rfl).2 hshows ?_
      exact fun r hr => hplain parentStart childPid r (by simp [walkOf, hpc, haccess]) hr
    split_ifs at hs with hshows hparent
    · cases hs
      exact of_system (h.system.readEntry hpc (Or.inr (lt_trans zero_lt_one hentry))
        fun he => (hfound hshows he).1 hparent)
    · cases hs
      refine h.of_walking hpc ⟨hentry, htarget, hchildren, ?_, ?_⟩
      · rintro _ _ ⟨⟩
      · rintro he _ ⟨⟩
        exact hfound hshows he
  | stat cmdline => cases hs

/-- The accesses of `read_process_info`, which is not asked about the limiter. -/
theorem readStep (h : KeepsApart own first filter s) {now : Timespec} {pid : Pid}
    {entries : List Pid} (hpc : s.system.pc = .reading now pid entries) {clkTck : ℕ} {k : Contents}
    (hs : s.readStep clkTck k now pid entries s.access = some t) :
    KeepsApart own first filter t := by
  have hnext : KeepsApart own first filter (s.nextEntry now entries) :=
    of_system (h.system.nextEntry (by rw [hpc]; rfl))
  have hnone : ∀ access, KeepsApart own first filter ⟨s.system, access⟩ := fun access =>
    ⟨h.system, fun access now' pid' entries' _ hpc' => by cases hpc.symm.trans hpc'⟩
  cases haccess : s.access with
  | none =>
    rw [haccess] at hs
    simp only [Stepwise.readStep, Option.some.injEq] at hs
    subst hs
    split_ifs
    · exact hnext
    · exact hnone _
  | some access =>
    rw [haccess] at hs
    cases access with
    | stat cmdline =>
      simp only [Stepwise.readStep] at hs
      split_ifs at hs with hshows
      cases hinfo : readProcessInfo clkTck pid (some cmdline) (k.record.map StatRecord.line) with
      | none =>
        rw [hinfo] at hs
        cases hs
        exact hnext
      | some info =>
        rw [hinfo] at hs
        cases hs
        exact of_system (h.system.joinEntry hpc (ProcessInfo.pid_of_readProcessInfo hinfo))
    | parentStart => cases hs
    | childStart parentStart childPid => cases hs
    | getppid parentStart childPid => cases hs

theorem step {clkTck : ℕ} {c : Setting} (hout : ¬ TakesIn first filter c.self)
    (hne : filter.pid ≠ c.self) (h : KeepsApart c.self first filter s) {e : FileEvent}
    (hs : s.step clkTck c e = some t) (hplain : s.Plain c.self e t) :
    KeepsApart c.self first filter t := by
  cases e with
  | env event =>
    simp only [Stepwise.step] at hs
    split_ifs at hs with hself
    obtain ⟨os, hos, rfl⟩ := Option.map_eq_some_iff.mp hs
    refine h.env (h.system.step (e := .env event) hout hne ?_) hos hplain
    simp [System.step, hself, hos]
  | limiter k =>
    simp only [Stepwise.step, Stepwise.limiterStep] at hs
    split at hs
    · rename_i now pid entries hpc
      split at hs
      · cases hs
        exact h.entryStep hout hne hpc
      · rename_i access haccess
        exact h.walkStep hout hne hpc haccess hplain hs
    · rename_i now pid entries hpc
      exact h.readStep hpc hs
    · obtain ⟨u, hu, rfl⟩ := Option.map_eq_some_iff.mp hs
      exact of_system (h.system.step (e := .limiter k.toAnswer) hout hne hu)

end KeepsApart

end Stepwise

/-! ## A run that takes the limiter in -/

namespace Os

variable {os : Os}

/-- Everything can be read again, except the start time of one process. The tree stays. -/
theorem recover_spec (target : Pid) : ∃ os1 os2, os.envStep .recover = some os1 ∧
    os1.envStep (.setStartReadable target false) = some os2 ∧ os2.procOpens = true ∧
    os2.AllReadable ∧ os2.getStartTime target = none ∧ os2.parentOf = os.parentOf ∧
    (os.FitsPidT → os2.FitsPidT) := by
  obtain ⟨os1, h1⟩ : ∃ os1, os.envStep .recover = some os1 := ⟨_, rfl⟩
  obtain ⟨os2, h2⟩ : ∃ os2, os1.envStep (.setStartReadable target false) = some os2 := ⟨_, rfl⟩
  have hopens : os2.procOpens = true := by
    cases h1
    cases h2
    rfl
  have hproc : ∀ pid, os2.proc pid =
      (os.proc pid).map fun p => setStartReadableOf target false (recoverOf p) := by
    intro pid
    rw [(envStep_spec h2).2.2, (envStep_spec h1).2.2]
    simp only [EnvEvent.after, Option.map_map]
    rfl
  refine ⟨os1, os2, h1, h2, hopens, ?_, ?_, ?_, ?_⟩
  · intro pid p' hp'
    rw [hproc, Option.map_eq_some_iff] at hp'
    obtain ⟨p, -, rfl⟩ := hp'
    rfl
  · rw [getStartTime, hproc]
    cases hp : os.proc target with
    | none => rfl
    | some p => simp [setStartReadableOf, recoverOf, (mem_of_proc hp).2]
  · funext pid
    rw [parentOf, parentOf, hproc, Option.map_map]
    rfl
  · intro hfits pid p' hp'
    rw [hproc, Option.map_eq_some_iff] at hp'
    obtain ⟨p, hp, rfl⟩ := hp'
    exact hfits pid p hp

/-- A process below the target passes the filter while the start time of the target
cannot be read. -/
theorem passes_of_takesIn {target own : Pid} (hread : os.AllReadable)
    (hstart : os.getStartTime target = none) (htarget : 0 < target) (hne : target ≠ own)
    (hin : TakesIn os ⟨target, true⟩ own) :
    1 < own ∧ ∃ fuel, os.passes fuel ⟨target, true⟩ own = some true := by
  have hown : 1 < own := by
    rcases hin.2 with ⟨-, hown⟩ | hanc
    · exact hown
    · obtain ⟨b, hlink, -⟩ := ParentTree.ancestor_iff.mp hanc
      exact (parentOf_eq_some.mp hlink).1
  have hpos : ¬ own ≤ 0 := not_le.mpr (lt_trans zero_lt_one hown)
  have hguard : ¬ (own ≤ 1 ∨ target ≤ 0 ∨ own = target) := by
    simp only [not_or, not_le]
    exact ⟨hown, htarget, Ne.symm hne⟩
  have hpasses : ∀ fuel, os.passes fuel ⟨target, true⟩ own = os.isChildOf fuel own target := by
    intro fuel
    simp [passes, readsOne, hpos, htarget.ne', hne]
  refine ⟨hown, ?_⟩
  by_cases hinit : target = 1
  · exact ⟨0, by rw [hpasses, isChildOf, if_neg hguard, if_pos hinit]⟩
  · have hanc := hin.2.resolve_left fun h => hinit h.1
    have hloop : ∃ fuel, os.isChildOfLoop target none fuel own = some true :=
      isChildOfLoop_complete hread (fun _ _ => rfl) hanc
    obtain ⟨fuel, hfuel⟩ := hloop
    exact ⟨fuel, by rw [hpasses, isChildOf, if_neg hguard, if_neg hinit, hstart, hfuel]⟩

/-- A listing of the directory that begins with a process that exists. -/
def listingFrom (os : Os) (pid : Pid) : List Pid :=
  pid :: ((os.procs.map OsProcess.pid).dedup.filter fun q => q ≠ pid)

theorem opened_listingFrom {filter : ProcessFilter} (hopens : os.procOpens = true)
    (hchildren : filter.includeChildren = true) (pid : Pid) :
    os.opened filter (os.listingFrom pid) = some (os.listingFrom pid) := by
  have hmany : ¬ readsOne filter := by simp [readsOne, hchildren]
  have hlist : (os.listingFrom pid).Nodup ∧ ∀ p ∈ os.procs, p.pid ∈ os.listingFrom pid := by
    constructor
    · exact List.nodup_cons.mpr ⟨by simp, (List.nodup_dedup _).filter _⟩
    · intro p hp
      by_cases hpid : p.pid = pid
      · simp [listingFrom, hpid]
      · simp only [listingFrom, List.mem_cons, List.mem_filter, List.mem_dedup, List.mem_map]
        exact Or.inr ⟨⟨p, hp, rfl⟩, by simpa using hpid⟩
  rw [opened, if_neg (by simp [hopens]), if_neg hmany, if_pos hlist]

end Os

/-- The first process that an emptied group gets is a member. -/
theorem mem_updateStep_clearMembers {g : ProcessGroup} (h : ProcessGroup.TableSound g) (dt : ℚ)
    {tmp : Process} (hpos : 0 < tmp.pid) :
    tmp.pid ∈ (ProcessGroup.updateStep dt g.clearMembers tmp).memberPids := by
  have hcoherent : ProcessGroup.Coherent g.clearMembers := .clearMembers h
  have hfresh : tmp.pid ∉ g.clearMembers.memberPids := by
    simp [ProcessGroup.clearMembers, ProcessGroup.memberPids]
  obtain ⟨-, hmembers⟩ := hcoherent.updateStep dt hpos hfresh
  rw [hmembers]
  simp

namespace Stepwise

/-- A limiter that the scan does take in is a member after one update in which
everything else can be read. -/
theorem member_of_takesIn (clkTck : ℕ) {c : Setting} {os : Os} (hfits : os.FitsPidT)
    (hself : os.alive c.self = true) {target : Pid} (htarget : 0 < target) (hne : target ≠ c.self)
    {includeChildren : Bool} (now : Timespec) (timeSlot : ℚ)
    (hin : TakesIn os ⟨target, includeChildren⟩ c.self) :
    ∃ s, Runs.ReachesAlong (step clkTck c) (Plain c.self)
      (start os target includeChildren now timeSlot) s ∧ c.self ∈ s.system.group.memberPids := by
  obtain ⟨hchildren, habove⟩ := hin
  dsimp only at hchildren habove
  subst hchildren
  obtain ⟨os1, os2, h1, h2, hopens, hread, hstart, hparent, hfits2⟩ := os.recover_spec target
  have halive1 := Os.envStep_alive h1 hself (by simp)
  have halive2 := Os.envStep_alive h2 halive1 (by simp)
  obtain ⟨hown, fuel, hpass⟩ :=
    Os.passes_of_takesIn hread hstart htarget hne ⟨rfl, by rw [hparent]; exact habove⟩
  let a : Answer := ⟨now, os2.listingFrom c.self, fuel, 0, [], none⟩
  let s0 := System.start os target true now timeSlot
  let s2 : System := { s0 with os := os2 }
  let s3 : System :=
    { s2 with group := s2.group.clearMembers, pc := .scanning now (os2.listingFrom c.self) }
  let s4 : System := { s3 with pc := .reading now c.self (os2.listingFrom c.self).tail }
  -- the environment restores the files, and `get_next_process` comes to the limiter first
  have hrecover : step clkTck c ⟨s0, none⟩ (.env .recover) =
      some ⟨{ s0 with os := os1 }, none⟩ := by
    have hos : s0.os.envStep .recover = some os1 := h1
    simp [step, Os.EnvEvent.Spares, hos]
  have hhide : step clkTck c ⟨{ s0 with os := os1 }, none⟩ (.env (.setStartReadable target false)) =
      some ⟨s2, none⟩ := by
    simp [step, Os.EnvEvent.Spares, h2, s2]
  have hopen : step clkTck c ⟨s2, none⟩ (.limiter ⟨a, [], none⟩) = some ⟨s3, none⟩ := by
    have hlist : s2.limiterStep c a = some s3 := by
      show (os2.opened s2.filter (os2.listingFrom c.self)).map _ = _
      rw [Os.opened_listingFrom hopens rfl c.self]
      rfl
    show (s2.limiterStep c a).map _ = _
    rw [hlist]
    rfl
  have hplain : ∀ s k t, Plain c.self s (.limiter ⟨a, k, none⟩) t := by
    rintro s k t _ _ r - ⟨⟩
  -- it passes the filter and is read
  have hpassed : s3.limiterStep c a = some s4 := by
    show (os2.passes fuel ⟨target, true⟩ c.self).map _ = _
    rw [hpass]
    rfl
  have hfilter : Runs.ReachesAlong (step clkTck c) (Plain c.self) ⟨s3, none⟩ ⟨s4, none⟩ :=
    reaches_filter (hfits2 hfits) rfl hpassed c.self
  have hpos : 0 < c.self := lt_trans zero_lt_one hown
  obtain ⟨tmp, hpid, hjoin⟩ : ∃ tmp : Process, tmp.pid = c.self ∧
      Runs.ReachesAlong (step clkTck c) (Plain c.self) ⟨s4, none⟩ _ :=
    reaches_join (hfits2 hfits) rfl hpos halive2 (hread c.self) a c.self
  refine ⟨_, .head hrecover trivial (.head hhide trivial (.head hopen (hplain _ _ _)
    (hfilter.trans hjoin))), ?_⟩
  have hmem := mem_updateStep_clearMembers (ProcessGroup.tableSound_fresh target true now)
    (timediffInMs now s4.group.lastUpdate) (hpid ▸ hpos)
  rw [hpid] at hmem
  exact hmem

end Stepwise

/-- In every run in which no walk from the limiter is led astray, the limiter stays out of
its own group if and only if the scan of the tree in which `limit_process` begins does
not take it in: it limits the target only, or the target is neither process 1 nor an
ancestor of the limiter. After a command it always stays out. -/
theorem self_not_member_iff (clkTck : ℕ) (c : Setting) {os : Os} (hroot : os.Rooted)
    (hfits : os.FitsPidT) (hself : os.alive c.self = true) {mode : StartMode} {target : Pid}
    (hlaunch : Launch os c.self mode target) (includeChildren : Bool) (now : Timespec)
    (timeSlot : ℚ) :
    ((∀ s, Runs.ReachesAlong (Stepwise.step clkTck c) (Stepwise.Plain c.self)
        (Stepwise.start os target includeChildren now timeSlot) s →
        c.self ∉ s.system.group.memberPids) ↔ ¬ TakesIn os ⟨target, includeChildren⟩ c.self) ∧
      (mode = .command → ¬ TakesIn os ⟨target, includeChildren⟩ c.self) := by
  obtain ⟨htarget, hne⟩ := hlaunch.target_spec
  refine ⟨⟨fun hall hin => ?_, fun hout s hrun => ?_⟩, ?_⟩
  · obtain ⟨s, hrun, hmem⟩ :=
      Stepwise.member_of_takesIn clkTck hfits hself htarget hne now timeSlot hin
    exact hall s hrun hmem
  · have hstart := System.KeepsApart.start hroot hself htarget includeChildren now timeSlot
    exact (hrun.invariant (fun _ _ _ h hs hplain => h.step hout hne hs hplain)
      (Stepwise.KeepsApart.of_system hstart)).system.apart.members
  · rintro rfl ⟨-, ⟨hone, -⟩ | hanc⟩
    · exact absurd hlaunch.command_apart.1 (not_lt.mpr hone.le)
    · exact hlaunch.command_apart.2.2 hanc

/-! ## A command, and the shell of the limiter -/

/-- Process 20, the shell or the `main` of cpulimit. -/
def parentOs : Os where
  procs := [⟨20, 1, false, ⟨5, 0⟩, true, true, true, none⟩]
  procOpens := true
  quitFlag := false

/-- Process 20 has forked processes 21 and 22. -/
def familyOs : Os where
  procs := parentOs.procs ++ [Os.newborn 20 21 ⟨9, 0⟩ true, Os.newborn 20 22 ⟨9, 0⟩ true]
  procOpens := true
  quitFlag := false

def familySetting : Setting := ⟨22, 1, 1 / 2⟩

theorem launch_command : Launch familyOs 22 .command 21 := by
  have hroot : parentOs.Rooted := Os.rooted_of_procs (by decide)
  have hrun : Runs.runPartial Os.envStep parentOs
      ([.fork 20 21 ⟨9, 0⟩ true] ++ [.fork 20 22 ⟨9, 0⟩ true]) = some familyOs := rfl
  exact .command hroot hrun (by simp) (by simp)

/-- Limiting the command 21 with its children, the limiter 22 stays out of the group. -/
theorem self_not_member_iff_command : Launch familyOs 22 .command 21 ∧ ∀ s,
    Runs.ReachesAlong (Stepwise.step 100 familySetting) (Stepwise.Plain 22)
      (Stepwise.start familyOs 21 true ⟨0, 0⟩ timeSlotBase) s →
      (22 : Pid) ∉ s.system.group.memberPids := by
  have hspec := self_not_member_iff 100 familySetting (Os.rooted_of_procs (by decide))
    (Os.fitsPidT_of_procs (by decide)) (by decide) launch_command true ⟨0, 0⟩ timeSlotBase
  exact ⟨launch_command, hspec.1.mpr (hspec.2 rfl)⟩

/-- A step in which the files of process `pid` show a shell whose parent is `ppid`. -/
def shellEvent (listing : List Pid) (pid ppid : Pid) : FileEvent :=
  .limiter ⟨⟨⟨0, 1000000⟩, listing, 0, 0, [], none⟩, [ 's', 'h'],
    if h : 0 < pid ∧ -2147483648 ≤ ppid ∧ ppid < 2147483648 then
      some (.shell pid ppid false h.1 h.2)
    else none⟩

/-- An update of the group of process 20. -/
def shellUpdate : List FileEvent :=
  List.replicate 4 (shellEvent [20, 21, 22] 20 1) ++
    List.replicate 6 (shellEvent [20, 21, 22] 21 20) ++
    List.replicate 7 (shellEvent [20, 21, 22] 22 20)

/-- The initial update and one cycle up to the end of its SIGSTOPs. -/
def shellEvents : List FileEvent :=
  shellUpdate ++ [shellEvent [] 22 20] ++ shellUpdate ++ List.replicate 10 (shellEvent [] 22 20)

/-- Limiting process 20 with its children by `pid`, the limiter 22 is in the group
and has sent itself SIGSTOP. -/
theorem self_stopped_of_shellEvents : Launch familyOs 22 .pid 20 ∧
    (Runs.runPartial (Stepwise.step 100 familySetting)
        (Stepwise.start familyOs 20 true ⟨0, 0⟩ timeSlotBase) shellEvents).map
      (fun s => (s.system.group.memberPids, (s.system.os.proc 22).bind OsProcess.lastSignal)) =
        some ([20, 21, 22], some .stop) := by
  have hrange : ¬ ((20 : Pid) ≤ 1 ∨ (32768 : Pid) ≤ 20) := by decide
  refine ⟨.pid hrange (by decide), ?_⟩
  decide +kernel

/-! ## Walks that are led astray

Process 42 is not above the limiter 22, but the update finds it there. -/

/-- The shell 20 of the limiter 22, and a process 42 elsewhere in the tree. -/
def strangerOs : Os where
  procs := [⟨20, 1, false, ⟨5, 0⟩, true, true, true, none⟩,
    ⟨42, 1, false, ⟨1, 0⟩, true, true, true, none⟩, Os.newborn 20 22 ⟨9, 0⟩ true]
  procOpens := true
  quitFlag := false

-- the name of process 20 imitates the parent 42
example : (Runs.runPartial (Stepwise.step 100 familySetting)
    (Stepwise.start strangerOs 42 true ⟨0, 0⟩ timeSlotBase)
    (List.replicate 5 (shellEvent [22, 20, 42] 22 20) ++
      [.limiter ⟨⟨⟨0, 0⟩, [], 0, 0, [], none⟩, [], none⟩,
        .limiter ⟨⟨⟨0, 0⟩, [], 0, 0, [], none⟩, [], some { StatRecord.shell 20 1 false
          (by decide) (by decide) with comm := "a) S 42".toList, comm_text := by simp }⟩] ++
      List.replicate 2 (shellEvent [] 22 20))).map (fun s => s.system.group.memberPids) =
    some [22] := by
  decide +kernel

-- process 20 ends when the walk has arrived there, and a child of 42 gets its `pid`
example : (Runs.runPartial (Stepwise.step 100 familySetting)
    (Stepwise.start strangerOs 42 true ⟨0, 0⟩ timeSlotBase)
    (List.replicate 5 (shellEvent [22, 20, 42] 22 20) ++
      [.env (.exit 20), .env (.reap 20), .env (.fork 42 20 ⟨10, 0⟩ true)] ++
      List.replicate 2 (shellEvent [] 20 42) ++
      List.replicate 2 (shellEvent [] 22 1))).map (fun s => s.system.group.memberPids) =
    some [22] := by
  decide +kernel

end CpuLimit
