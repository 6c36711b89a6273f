import CpuLimit.AppleSession
import CpuLimit.FreebsdSession
import CpuLimit.LinuxSession

/-!
# The same processes on three platforms

A session over processes that do not change while it lasts ends with its handle closed, and
yields the processes that the filter asks for, in the order of the system. FreeBSD and
Apple hide the processes of the system, and FreeBSD follows the links even to process 1.
-/
namespace CpuLimit

open Library

variable {os : Os} {filter : ProcessFilter}

namespace Os

open Classical

theorem procfs_walks (hacyclic : os.Acyclic) (hgrow : os.StartTimesGrow) (filter : ProcessFilter) :
    ∃ enough, ∀ fuel, enough ≤ fuel → Procfs.Walks os filter fuel := by
  obtain ⟨enough, henough⟩ := Fuel.Returns.forall_mem fun pid (_ : pid ∈ os.procs.map _) =>
    isChildOf_returns hacyclic hgrow pid filter.pid
  exact ⟨enough, fun fuel hfuel pid hpid => ⟨_, henough fuel hfuel pid hpid, decide_eq_true_iff⟩⟩

theorem libproc_walks (hacyclic : os.Acyclic) (filter : ProcessFilter) :
    ∃ enough, ∀ fuel, enough ≤ fuel → Libproc.Walks os filter fuel := by
  obtain ⟨enough, henough⟩ := Fuel.Returns.forall_mem fun pid (_ : pid ∈ os.procs.map _) =>
    Apple.isChildOf_returns hacyclic pid filter.pid
  exact ⟨enough, fun fuel hfuel pid hpid => ⟨_, henough fuel hfuel pid hpid, decide_eq_true_iff⟩⟩

theorem kvm_walks (hacyclic : os.Acyclic) (filter : ProcessFilter) :
    ∃ enough, ∀ fuel, enough ≤ fuel → Kvm.Walks os filter fuel := by
  obtain ⟨enough, henough⟩ := Fuel.Returns.forall_mem fun pid (_ : pid ∈ os.procs.map _) =>
    Freebsd.isChildOf_returns hacyclic true pid filter.pid
  refine ⟨enough, fun fuel hfuel pid hpid => ?_⟩
  have hanswer := henough fuel hfuel pid hpid
  rw [Freebsd.isChildOf, if_pos rfl, Option.map_map] at hanswer
  obtain ⟨answer, hopen, heq⟩ := Option.map_eq_some_iff.mp hanswer
  refine ⟨answer, hopen, ?_⟩
  have htruth : decide ((if answer then (1 : ℤ) else 0) ≠ 0) = answer := by cases answer <;> rfl
  rw [← htruth]
  refine (iff_of_eq (congrArg (· = true) heq)).trans ?_
  simp [Below]

/-- What is asked for, as a condition on the processes. -/
theorem filterMap_chooses (hides : Pid → Bool) (below : Pid → Pid → Prop) (l : List Pid) :
    l.filterMap (os.chooses hides below filter) = l.filter fun pid => hides pid = false ∧
      os.canRead pid = true ∧ (filter.pid = 0 ∨ pid = filter.pid ∨ below filter.pid pid) := by
  rw [← List.filterMap_eq_filter]
  refine List.filterMap_congr fun pid _ => ?_
  simp only [chooses, Option.guard, decide_eq_true_eq]

/-- To hide fewer processes and to take more for children does not lose any. -/
theorem wanted_sublist {hides hides' : Pid → Bool} {below below' : Pid → Pid → Prop}
    (hhides : ∀ pid, hides pid = false → hides' pid = false)
    (hbelow : ∀ root pid, below root pid → below' root pid) :
    (os.wanted hides below filter).Sublist (os.wanted hides' below' filter) := by
  unfold wanted
  split_ifs
  · exact List.Sublist.refl _
  · rw [filterMap_chooses, filterMap_chooses]
    refine List.monotone_filter_right _ fun pid hpid => ?_
    obtain ⟨hshown, hread, hasked⟩ := of_decide_eq_true hpid
    exact decide_eq_true ⟨hhides pid hshown, hread, hasked.imp_right (Or.imp_right (hbelow _ _))⟩

theorem wanted_of_ne_one {hides : Pid → Bool} (hone : filter.pid ≠ 1) :
    os.wanted hides os.CountsBelow filter = os.wanted hides os.Below filter := by
  unfold wanted
  rw [filterMap_chooses, filterMap_chooses]
  simp only [CountsBelow, hone, false_and, or_false]

end Os

/-- The sessions of the three platforms: FreeBSD yields a part of what Apple yields, and
Apple a part of what Linux yields. -/
theorem sessionsYield (hdistinct : (os.procs.map OsProcess.pid).Nodup) (hacyclic : os.Acyclic)
    (hgrow : os.StartTimesGrow) {entries : List ProcEntry}
    (hentries : ProcEntry.pids entries = os.procs.map OsProcess.pid) (system : Pid → Bool)
    (filter : ProcessFilter) :
    ∃ linux apple freebsd : List Pid,
      linux = os.wanted (fun _ => false) os.CountsBelow filter ∧
      apple = os.wanted system os.CountsBelow filter ∧
      freebsd = os.wanted system os.Below filter ∧
      freebsd.Sublist apple ∧ apple.Sublist linux ∧
      (filter.pid ≠ 1 → freebsd = apple) ∧
      ∃ enough, ∀ fuel, enough ≤ fuel →
        (∃ it, (Procfs.backend (os.procfs entries fuel) filter).session fuel =
          .returned (linux, it) ∧ it.stream = .closed) ∧
        (∃ it, (Kvm.backend (os.kvm system) filter).session fuel =
          .returned (freebsd, it) ∧ it.descriptor = .closed) ∧
        ∃ it, (Libproc.backend (os.libproc system) filter).session fuel =
          .returned (apple, it) ∧ it.memory = .closed := by
  obtain ⟨n, hn⟩ := Os.procfs_walks hacyclic hgrow filter
  obtain ⟨m, hm⟩ := Os.kvm_walks hacyclic filter
  obtain ⟨k, hk⟩ := Os.libproc_walks hacyclic filter
  refine ⟨_, _, _, rfl, rfl, rfl, Os.wanted_sublist (fun _ h => h) fun _ _ h => Or.inl h,
    Os.wanted_sublist (fun _ _ => rfl) fun _ _ h => h, fun hone => (Os.wanted_of_ne_one hone).symm,
    n + m + k + entries.length + os.procs.length + 2, fun fuel hfuel => ⟨?_, ?_, ?_⟩⟩
  · exact Procfs.session_wanted hentries (hn fuel (by omega)) (by omega)
  · exact Kvm.session_wanted hdistinct (hm fuel (by omega)) (by omega)
  · exact Libproc.session_wanted (hk fuel (by omega)) (by omega)

/-- Process 8 is a zombie, and 7 was started from outside of the container. -/
def sessionOs : Os where
  procs := [⟨9, 8, false, ⟨5, 0⟩, true, true, true, none⟩,
    ⟨1, 0, false, ⟨0, 0⟩, true, true, true, none⟩,
    ⟨7, 0, false, ⟨3, 0⟩, true, true, true, none⟩,
    ⟨8, 7, true, ⟨3, 0⟩, true, true, true, none⟩]
  procOpens := true
  quitFlag := false

theorem sessionsYield_sessionOs :
    ∃ linux apple freebsd : List Pid,
      linux = sessionOs.wanted (fun _ => false) sessionOs.CountsBelow ⟨1, true⟩ ∧
      apple = sessionOs.wanted (fun pid => pid = 9) sessionOs.CountsBelow ⟨1, true⟩ ∧
      freebsd = sessionOs.wanted (fun pid => pid = 9) sessionOs.Below ⟨1, true⟩ ∧
      freebsd.Sublist apple ∧ apple.Sublist linux ∧
      ((1 : Pid) ≠ 1 → freebsd = apple) ∧
      ∃ enough, ∀ fuel, enough ≤ fuel →
        (∃ it, (Procfs.backend (sessionOs.procfs ProcFs.zombieListing fuel) ⟨1, true⟩).session
            fuel = .returned (linux, it) ∧ it.stream = .closed) ∧
        (∃ it, (Kvm.backend (sessionOs.kvm fun pid => pid = 9) ⟨1, true⟩).session fuel =
          .returned (freebsd, it) ∧ it.descriptor = .closed) ∧
        ∃ it, (Libproc.backend (sessionOs.libproc fun pid => pid = 9) ⟨1, true⟩).session fuel =
          .returned (apple, it) ∧ it.memory = .closed :=
  sessionsYield (by decide) (Os.acyclic_of_procs (by decide))
    (Os.startTimesGrow_of_procs (by decide)) (by decide) (fun pid => pid = 9) ⟨1, true⟩

end CpuLimit
