import CpuLimit.AppleIterator

/-!
# Any order of calls

What becomes of an iterator after `init_process_iterator` when `get_next_process` and
`close_process_iterator` are called in any order. On Linux and Apple the iterator remembers
that it is closed, so that further calls do nothing. On FreeBSD it does not: one
`close_process_iterator` is the most that it bears.
-/
namespace CpuLimit

open Library

namespace Backend

variable {σ : Type} (b : Backend σ)

inductive Call
  | next
  | close
  deriving DecidableEq

/-- The calls one after the other, without a look at their results. -/
def calls (fuel : ℕ) : σ → List Call → Outcome HandleFault σ
  | it, [] => .returned it
  | it, .next :: later => b.next fuel it >>= fun s => calls fuel s.2 later
  | it, .close :: later => b.close it >>= fun s => calls fuel s.2 later

/-- The calls after `init_process_iterator`. -/
def history (fuel : ℕ) (later : List Call) : Outcome HandleFault σ :=
  b.init >>= fun s => b.calls fuel s.2 later

variable {b} {fuel : ℕ} {inv : σ → Prop}

/-- What every call keeps, and what the last `close_process_iterator` brings about. -/
theorem calls_close_meets {post : σ → Prop}
    (hnext : ∀ it, inv it → (b.next fuel it).Meets fun s => inv s.2)
    (hclose : ∀ it, inv it → (b.close it).Meets fun s => inv s.2 ∧ post s.2)
    (later : List Call) {it : σ} (hit : inv it) :
    (b.calls fuel it (later ++ [.close])).Meets post := by
  induction later generalizing it with
  | nil => exact (hclose it hit).bind fun s hs => hs.2
  | cons call later ih =>
    cases call with
    | next => exact (hnext it hit).bind fun s hs => ih hs
    | close => exact (hclose it hit).bind fun s hs => ih hs.1

end Backend

namespace Procfs

variable {env : Answers} {it : Iterator}

theorem tracked_closeProcessIterator (h : Tracked it) :
    (closeProcessIterator env it).Meets fun s => Tracked s.2 ∧ s.2.stream ≠ .opened := by
  obtain ⟨hdip, hclosed⟩ | ⟨hdip, hopen, -⟩ := h
  · rw [closeProcessIterator, readField_of_eq hdip]
    exact ⟨Or.inl ⟨hdip, hclosed⟩, hclosed⟩
  · have hne : HandlePtr.handle ≠ .null := by decide
    rw [closeProcessIterator, readField_of_eq hdip]
    dsimp only [Outcome.returned_bind]
    rw [if_neg hne, closeStream_eq hdip hopen]
    exact ⟨Or.inl ⟨rfl, by simp⟩, by simp⟩

/-- On Linux any calls may follow, as long as a close is the last of them. -/
theorem history_meets (env : Answers) (filter : ProcessFilter) (fuel : ℕ)
    (later : List Backend.Call) :
    ((backend env filter).history fuel (later ++ [.close])).Meets
      fun it => it.stream ≠ .opened := by
  have hinit : (initProcessIterator env filter).Meets fun s => Tracked s.2 := tracked_init
  exact hinit.bind fun s hs => Backend.calls_close_meets (fun _ => tracked_getNextProcess fuel)
    (fun _ => tracked_closeProcessIterator) later hs

end Procfs

namespace Libproc

variable {env : Answers} {it : Iterator}

/-- On Apple any calls may follow, as long as a close is the last of them. -/
theorem history_meets (env : Answers) (filter : ProcessFilter) (fuel : ℕ)
    (later : List Backend.Call) :
    ((backend env filter).history fuel (later ++ [.close])).Meets
      fun it => it.memory ≠ .opened := by
  have hnext : ∀ it, Live it ∨ Closed it →
      ((backend env filter).next fuel it).Meets fun s => Live s.2 ∨ Closed s.2 := by
    rintro it (h | h)
    · exact (live_getNextProcess fuel h).bind fun s hs => Or.inl hs
    · change (getNextProcess env fuel it >>= fun s =>
        (.returned (s.1.map Process.pid, s.2) : Outcome HandleFault _)).Meets _
      rw [getNextProcess_of_closed fuel h]
      exact Or.inr h
  have hclose : ∀ it, Live it ∨ Closed it → ((backend env filter).close it).Meets
      fun s => (Live s.2 ∨ Closed s.2) ∧ s.2.memory ≠ .opened := by
    intro it h
    obtain ⟨it', heq, hclosed⟩ := closed_closeProcessIterator h
    change (closeProcessIterator it).Meets _
    rw [heq]
    exact ⟨Or.inr hclosed, hclosed.freed⟩
  exact (live_initProcessIterator env filter).bind fun s hs =>
    Backend.calls_close_meets hnext hclose later (Or.inl hs.2)

end Libproc

namespace Kvm

variable {env : Answers} {filter : ProcessFilter} {it : Iterator}

/-- A second close finds the descriptor closed. -/
theorem calls_close_close {fuel : ℕ} (h : Ready it) :
    (backend env filter).calls fuel it [.close, .close] = .faulted .notOpen := by
  obtain ⟨procs, count, hprocs, -⟩ := h.counted
  have hfirst : closeProcessIterator env it = .returned (if env.close then 0 else -1,
      { it with procs := some none, descriptor := .closed }) := by
    rw [closeProcessIterator, readField_of_eq hprocs, readField_of_eq h.kd_eq]
    dsimp only [Outcome.returned_bind]
    rw [closeHandle_of_opened h.opened]
    rfl
  change closeProcessIterator env it >>= _ = _
  rw [hfirst]
  change closeProcessIterator env { it with procs := some none, descriptor := .closed } >>= _ = _
  have hsecond : closeProcessIterator env { it with procs := some none, descriptor := .closed } =
      .faulted .notOpen := by
    rw [closeProcessIterator]
    simp only [readField, h.kd_eq, Outcome.returned_bind]
    rfl
  rw [hsecond]
  rfl

theorem ready_initProcessIterator (filter : ProcessFilter)
    (h : env.errbuf = true → env.openfiles = true ∧ env.getprocs.isSome = true) :
    (initProcessIterator env filter).Meets fun s => Ready s.2 := by
  unfold initProcessIterator
  cases herrbuf : env.errbuf with
  | false => exact trivial
  | true =>
    obtain ⟨hopen, hprocs⟩ := h herrbuf
    obtain ⟨procs, hp⟩ := Option.isSome_iff_exists.mp hprocs
    rw [hopen, hp]
    cases env.procs with
    | false => exact trivial
    | true => exact ⟨rfl, rfl, by simp, by simp, procs, procs.length, rfl, rfl, le_rfl⟩

/-- On FreeBSD every `get_next_process` before the close finds what it needs. -/
theorem history_meets (h : env.errbuf = true → env.openfiles = true ∧ env.getprocs.isSome = true)
    (filter : ProcessFilter) (fuel n : ℕ) :
    ((backend env filter).history fuel (List.replicate n .next ++ [.close])).Meets
      fun it => it.descriptor ≠ .opened := by
  refine (ready_initProcessIterator filter h).bind fun s hs => ?_
  generalize s.2 = it at hs
  induction n generalizing it with
  | zero => exact (closed_closeProcessIterator hs).bind fun s hs => hs
  | succ n ih => exact (ready_getNextProcess fuel hs).bind fun s hs => ih s.2 hs.1

/-- A second close never returns. -/
theorem history_ne_returned
    (h : env.errbuf = true → env.openfiles = true ∧ env.getprocs.isSome = true)
    (filter : ProcessFilter) (fuel n : ℕ) (it : Iterator) :
    (backend env filter).history fuel (List.replicate n .next ++ [.close, .close]) ≠
      .returned it := by
  refine (ready_initProcessIterator filter h).bind_ne_returned fun s hs => ?_
  generalize s.2 = start at hs
  induction n generalizing start with
  | zero =>
    rw [List.replicate_zero, List.nil_append, calls_close_close hs]
    exact fun he => by cases he
  | succ n ih => exact (ready_getNextProcess fuel hs).bind_ne_returned fun s hs => ih s.2 hs.1

end Kvm

/-- Whatever the system answers, on Linux and Apple every order of calls after the
initialisation that ends with a close is without a fault and leaves nothing open. On
FreeBSD, where the kvm calls of the initialisation succeed, this is so for any number of
`get_next_process` before one close, and a second close never returns. -/
theorem callOrders (linux : Procfs.Answers) (apple : Libproc.Answers) {freebsd : Kvm.Answers}
    (hkvm : freebsd.errbuf = true → freebsd.openfiles = true ∧ freebsd.getprocs.isSome = true)
    (filter : ProcessFilter) (fuel : ℕ) :
    (∀ later, ((Procfs.backend linux filter).history fuel (later ++ [.close])).Meets
      fun it => it.stream ≠ .opened) ∧
    (∀ later, ((Libproc.backend apple filter).history fuel (later ++ [.close])).Meets
      fun it => it.memory ≠ .opened) ∧
    ∀ n, ((Kvm.backend freebsd filter).history fuel (List.replicate n .next ++ [.close])).Meets
        (fun it => it.descriptor ≠ .opened) ∧
      ∀ it, (Kvm.backend freebsd filter).history fuel
        (List.replicate n .next ++ [.close, .close]) ≠ .returned it :=
  ⟨Procfs.history_meets linux filter fuel, Libproc.history_meets apple filter fuel,
    fun n => ⟨Kvm.history_meets hkvm filter fuel n, Kvm.history_ne_returned hkvm filter fuel n⟩⟩

/-- Two processes, of which the second belongs to the system. -/
def appleProcesses : Libproc.Answers where
  size := true
  buffer := true
  listing := some [7, 9]
  pidlist := true
  pidinfo _ pid := some ⟨pid, 1, pid = 9, 0, 0⟩
  pidpath _ _ := some "/bin/sh".toList

def kvmProcesses : Kvm.Answers :=
  ⟨true, true, some [⟨7, 1, false⟩, ⟨9, 0, true⟩], none, true, fun _ pid => some ⟨pid, 1, false⟩,
    fun _ _ => true, true⟩

/-- A second round of calls after the first close. -/
theorem callOrders_twice :
    ((Procfs.backend Procfs.threeEntries ⟨0, false⟩).history 5
        [.next, .close, .next, .close]).Meets (fun it => it.stream ≠ .opened) ∧
      ((Libproc.backend appleProcesses ⟨0, false⟩).history 5
        [.next, .next, .close, .next, .close]).Meets (fun it => it.memory ≠ .opened) ∧
      ∀ it, (Kvm.backend kvmProcesses ⟨0, false⟩).history 5 [.next, .close, .close] ≠
        .returned it := by
  have hkvm : kvmProcesses.errbuf = true →
      kvmProcesses.openfiles = true ∧ kvmProcesses.getprocs.isSome = true := by decide
  obtain ⟨hlinux, happle, hfreebsd⟩ :=
    callOrders Procfs.threeEntries appleProcesses hkvm ⟨0, false⟩ 5
  exact ⟨hlinux [.next, .close, .next], happle [.next, .next, .close, .next], (hfreebsd 1).2⟩

end CpuLimit
