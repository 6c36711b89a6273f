import CpuLimit.IteratorHandles

/-!
# Sessions come to an end

A session of the callers ends, and then its handle is closed: on Linux once the
stream of /proc ends, on FreeBSD once the walks through the tree do. Every call
that yields a process lowers what is left of the iteration.
-/
namespace CpuLimit

open Library

theorem readField_ends {α : Type} (field : Option α) : (readField field).Ends := by
  cases field with
  | none => exact Outcome.ends_faulted
  | some a => exact Outcome.ends_returned

theorem useHandle_ends (ptr : HandlePtr) (handle : Handle) : (useHandle ptr handle).Ends := by
  unfold useHandle
  split
  · exact Outcome.ends_returned
  · exact Outcome.ends_faulted

theorem closeHandle_ends (ptr : HandlePtr) (handle : Handle) : (closeHandle ptr handle).Ends :=
  (useHandle_ends ptr handle).bind fun _ => Outcome.ends_returned

namespace Backend

variable {σ : Type} {b : Backend σ}

/-- A session ends if its calls do, and a call that yields lowers a measure. -/
theorem session_delivers {inv : σ → Prop} {left : σ → ℕ} {fuel : ℕ}
    (hinit : b.init.Delivers fun s => inv s.2 ∧ left s.2 < fuel)
    (hnext : ∀ it, inv it → left it < fuel →
      (b.next fuel it).Delivers fun s => inv s.2 ∧ (s.1 ≠ none → left s.2 < left it))
    (hclose : ∀ it, inv it → (b.close it).Delivers fun s => b.handle s.2 ≠ .opened) :
    (b.session fuel).Delivers fun s => b.handle s.2 ≠ .opened := by
  refine hinit.bind fun s hs => ?_
  have hdrain : (b.drain fuel s.2).Delivers fun t => inv t.2 := by
    refine Outcome.delivers_iterate (fun t => inv t.2 ∧ left t.2 < fuel) (fun t => left t.2)
      (fun t ht => ?_) hs hs.2
    refine (hnext t.2 ht.1 ht.2).bind fun r hr => ?_
    obtain ⟨_ | pid, it⟩ := r
    · exact ⟨Outcome.ends_returned, hr.1⟩
    · have hless := hr.2 (Option.some_ne_none pid)
      exact ⟨Outcome.ends_returned, ⟨hr.1, hless.trans ht.2⟩, hless⟩
  refine hdrain.bind fun t ht => ?_
  exact (hclose t.2 ht).bind fun r hr => ⟨Outcome.ends_returned, hr⟩

end Backend

/-! ## Linux -/

namespace Procfs

variable {env : Answers} {filter : ProcessFilter} {n : ℕ} {it : Iterator}

/-- The turns that an open stream allows when it ends at `n`. -/
def left (n : ℕ) (it : Iterator) : ℕ := if it.stream = .opened then n + 1 - it.time else 0

/-- The iteration has not gone past the end of the stream. -/
def InTime (n : ℕ) (it : Iterator) : Prop := Tracked it ∧ (it.stream = .opened → it.time ≤ n)

theorem left_of_opened (hopen : it.stream = .opened) : left n it = n + 1 - it.time :=
  if_pos hopen

theorem left_of_closed (hclosed : it.stream ≠ .opened) : left n it = 0 := if_neg hclosed

/-- A turn over a stream that ends at `n`. -/
theorem readdirTurn_delivers (hend : env.readdir n = none) (hdip : it.dip = some .handle)
    (hopen : it.stream = .opened) (hfilter : it.filter ≠ none) (htime : it.time ≤ n) :
    (readdirTurn env filter it).Delivers (Sum.elim
      (fun t => (t.dip = some .handle ∧ t.stream = .opened ∧ t.filter ≠ none ∧ t.time ≤ n) ∧
        left n t < left n it)
      fun s => InTime n s.2 ∧ (s.1 ≠ none → left n s.2 < left n it)) := by
  have hnext : left n { it with time := it.time + 1 } < left n it := by
    rw [left_of_opened hopen, left_of_opened (by exact hopen)]
    dsimp only
    omega
  rcases readdirTurn_cases filter hdip hopen with hlast | ⟨hmore, hstep⟩
  · rw [hlast]
    exact ⟨Outcome.ends_returned, ⟨Or.inl ⟨rfl, by simp⟩, by simp⟩, by simp⟩
  · have hlt : it.time < n := lt_of_le_of_ne htime fun he => hmore (he ▸ hend)
    rcases hstep with hskip | ⟨pid, hfound⟩
    · rw [hskip]
      exact ⟨Outcome.ends_returned, ⟨hdip, hopen, hfilter, hlt⟩, hnext⟩
    · rw [hfound]
      exact ⟨Outcome.ends_returned, ⟨Or.inr ⟨hdip, hopen, hfilter⟩, fun _ => hlt⟩, fun _ => hnext⟩

theorem getNextProcess_delivers (hend : env.readdir n = none) {fuel : ℕ} (hfuel : n + 1 < fuel)
    (h : InTime n it) : (getNextProcess env fuel it).Delivers fun s =>
      InTime n s.2 ∧ (s.1 ≠ none → left n s.2 < left n it) := by
  obtain ⟨⟨hdip, hclosed⟩ | ⟨hdip, hopen, hfilter⟩, htime⟩ := h
  · rw [getNextProcess, readField_of_eq hdip]
    exact ⟨Outcome.ends_returned, ⟨Or.inl ⟨hdip, hclosed⟩, htime⟩, by simp⟩
  · obtain ⟨filter, hf⟩ := Option.ne_none_iff_exists'.mp hfilter
    have hne : HandlePtr.handle ≠ .null := by decide
    have hleft := left_of_opened (n := n) hopen
    rw [getNextProcess, readField_of_eq hdip, readField_of_eq hf]
    dsimp only [Outcome.returned_bind]
    rw [if_neg hne, closeStream_eq hdip hopen]
    split
    · refine ⟨Outcome.ends_returned, ⟨Or.inl ⟨rfl, by simp⟩, by simp⟩, fun _ => ?_⟩
      rw [hleft, left_of_closed (by simp)]
      have := htime hopen
      omega
    · have hstart : (it.dip = some .handle ∧ it.stream = .opened ∧ it.filter ≠ none ∧
          it.time ≤ n) ∧ left n it ≤ left n it :=
        ⟨⟨hdip, hopen, hfilter, htime hopen⟩, Nat.le_refl _⟩
      refine Outcome.delivers_iterate (fun t => (t.dip = some .handle ∧ t.stream = .opened ∧
        t.filter ≠ none ∧ t.time ≤ n) ∧ left n t ≤ left n it) (left n) (fun t ht => ?_) hstart
        (by omega)
      obtain ⟨⟨htdip, htopen, htfilter, httime⟩, htleft⟩ := ht
      refine (readdirTurn_delivers hend htdip htopen htfilter httime).mono fun s hs => ?_
      cases s with
      | inl u => exact ⟨⟨hs.1, hs.2.le.trans htleft⟩, hs.2⟩
      | inr r => exact ⟨hs.1, fun hr => (hs.2 hr).trans_le htleft⟩

theorem closeProcessIterator_ends (env : Answers) (it : Iterator) :
    (closeProcessIterator env it).Ends := by
  have hclose : (closeStream it).Ends := (readField_ends it.dip).bind fun dip =>
    (closeHandle_ends dip it.stream).bind fun _ => Outcome.ends_returned
  refine (readField_ends it.dip).bind fun dip => ?_
  split
  · exact Outcome.ends_returned
  · exact hclose.bind fun _ => Outcome.ends_returned

/-- A session over a stream that ends is over after as many turns, with the stream
closed. -/
theorem session_delivers (env : Answers) (filter : ProcessFilter) {n : ℕ}
    (hend : env.readdir n = none) {fuel : ℕ} (hfuel : n + 1 < fuel) :
    ((backend env filter).session fuel).Delivers fun s => s.2.stream ≠ .opened := by
  have hinit : (initProcessIterator env filter).Delivers fun s =>
      InTime n s.2 ∧ left n s.2 < fuel := by
    unfold initProcessIterator
    split_ifs
    · exact ⟨Outcome.ends_exited, trivial⟩
    · refine ⟨Outcome.ends_returned, ⟨Or.inl ⟨rfl, by decide⟩, by simp⟩, ?_⟩
      rw [left_of_closed (by decide)]
      omega
    · refine ⟨Outcome.ends_returned, ⟨Or.inr ⟨rfl, rfl, by simp⟩, fun _ => Nat.zero_le n⟩, ?_⟩
      rw [left_of_opened rfl]
      exact hfuel
  have hclose : ∀ it, InTime n it →
      (closeProcessIterator env it).Delivers fun s => s.2.stream ≠ .opened :=
    fun it hit => ⟨closeProcessIterator_ends env it, closed_closeProcessIterator hit.1⟩
  exact Backend.session_delivers (b := backend env filter) hinit
    (fun _ hit _ => getNextProcess_delivers hend hfuel hit) hclose

end Procfs

/-! ## FreeBSD -/

namespace Kvm

variable {env : Answers} {filter : ProcessFilter} {it : Iterator} {fuel : ℕ}

theorem kproc2proc_ends (kd : HandlePtr) (it : Iterator) (kproc : KinfoProc) :
    (kproc2proc env kd it kproc).Ends :=
  (useHandle_ends kd it.descriptor).bind fun _ => Outcome.ends_returned

theorem getSingleProcess_ends (kd : HandlePtr) (it : Iterator) (pid : Pid) :
    (getSingleProcess env kd it pid).Ends := by
  refine (useHandle_ends kd it.descriptor).bind fun _ => ?_
  cases env.process it.time pid with
  | none => exact Outcome.ends_returned
  | some kproc => exact kproc2proc_ends kd it kproc

theorem procAt_ends (procs : Option (List KinfoProc)) (i : ℕ) : (procAt procs i).Ends := by
  unfold procAt
  split
  · exact Outcome.ends_faulted
  · exact Outcome.ends_returned

/-- Every walk through the tree ends with this fuel. -/
def WalksEnd (env : Answers) (fuel : ℕ) : Prop :=
  ∀ kd it childPid parentPid, (isChildOf env fuel kd it childPid parentPid).Ends

/-- How far a walk from a process can get, if links lead to smaller numbers below `bound`. -/
def height (bound : ℕ) (pid : Pid) : ℕ := if (bound : ℤ) ≤ pid then bound + 1 else pid.toNat

theorem height_lt {bound : ℕ} {parent pid : ℤ} (hpid : 1 < pid) (hlt : parent < pid)
    (hin : (bound : ℤ) ≤ pid → parent < 0) : height bound parent < height bound pid := by
  unfold height
  split_ifs <;> omega

theorem height_getppidOf {bound : ℕ}
    (hless : ∀ time pid kproc, env.process time pid = some kproc → kproc.kiPpid < pid)
    (hbound : ∀ time pid, (bound : ℤ) ≤ pid → env.process time pid = none)
    (hopen : it.descriptor = .opened) {pid : Pid} (hpid : 1 < pid) :
    (getppidOf env .handle it pid).Delivers fun ppid => height bound ppid < height bound pid := by
  rw [getppidOf, useHandle_of_opened hopen]
  dsimp only [Outcome.returned_bind]
  cases hproc : env.process it.time pid with
  | none =>
    have hneg : (-1 : ℤ) < pid := lt_trans (by decide) hpid
    exact ⟨Outcome.ends_returned, height_lt hpid hneg fun _ => by decide⟩
  | some kproc =>
    refine ⟨Outcome.ends_returned, height_lt hpid (hless _ _ _ hproc) fun hle => ?_⟩
    rw [hbound _ _ hle] at hproc
    cases hproc

/-- The walks end where every parent has a smaller number than its children. -/
theorem walksEnd_of_lt {bound : ℕ}
    (hless : ∀ time pid kproc, env.process time pid = some kproc → kproc.kiPpid < pid)
    (hbound : ∀ time pid, (bound : ℤ) ≤ pid → env.process time pid = none)
    (hfuel : bound + 1 < fuel) : WalksEnd env fuel := by
  intro kd it childPid parentPid
  rw [isChildOf]
  split
  · exact Outcome.ends_returned
  · by_cases huse : kd = .handle ∧ it.descriptor = .opened
    · obtain ⟨rfl, hopen⟩ := huse
      have hheight : height bound childPid < fuel := by
        unfold height
        split_ifs <;> omega
      refine (@Outcome.delivers_iterate _ _ _ _ (fun _ => True) (fun s => s.2.descriptor = .opened)
        (fun s => height bound s.1) (fun s hs => ?_) _ _ hopen hheight).ends
      split
      case isTrue hgo =>
        exact (height_getppidOf hless hbound hs hgo.1).bind fun ppid hppid =>
          ⟨Outcome.ends_returned, hs, hppid⟩
      case isFalse => exact ⟨Outcome.ends_returned, trivial⟩
    · have hfault : useHandle kd it.descriptor = .faulted .notOpen := if_neg huse
      cases fuel with
      | zero => exact absurd hfuel (Nat.not_lt_zero _)
      | succ fuel =>
        rw [Outcome.iterate]
        dsimp only
        split
        · rw [getppidOf, hfault]
          exact Outcome.ends_faulted
        · exact Outcome.ends_returned

theorem procTurn_ends (hwalks : WalksEnd env fuel) (filter : ProcessFilter) (it : Iterator) :
    (procTurn env fuel filter it).Ends := by
  refine (readField_ends it.i).bind fun i => (readField_ends it.count).bind fun count => ?_
  split
  · exact Outcome.ends_returned
  · refine (readField_ends it.procs).bind fun procs => (procAt_ends procs i).bind fun kproc =>
      (readField_ends it.kd).bind fun kd => ?_
    dsimp only
    split
    · exact Outcome.ends_returned
    · split
      · refine (kproc2proc_ends kd _ kproc).bind fun pid => ?_
        cases pid with
        | none => exact Outcome.ends_returned
        | some pid =>
          dsimp only
          split
          · exact Outcome.ends_returned
          · exact (hwalks kd _ pid filter.pid).bind fun _ => Outcome.ends_returned
      · split
        · refine (kproc2proc_ends kd _ kproc).bind fun pid => ?_
          cases pid with
          | none => exact Outcome.ends_returned
          | some pid => exact Outcome.ends_returned
        · exact Outcome.ends_returned

theorem getNextProcess_ends (hwalks : WalksEnd env fuel) (h : Ready it) (hfuel : left it < fuel) :
    (getNextProcess env fuel it).Ends := by
  refine (readField_ends it.i).bind fun i => (readField_ends it.count).bind fun count => ?_
  split
  · exact Outcome.ends_returned
  · refine (readField_ends it.filter).bind fun filter => ?_
    split
    · refine (readField_ends it.kd).bind fun kd =>
        (getSingleProcess_ends kd it filter.pid).bind fun pid => ?_
      cases pid with
      | none => exact Outcome.ends_returned
      | some pid => exact Outcome.ends_returned
    case isFalse hmany =>
      have hturn : ∀ t, Ready t → (procTurn env fuel filter t).Delivers
          (Sum.elim (fun u => Ready u ∧ left u < left t) fun _ => True) := by
        refine fun t ht => ⟨procTurn_ends hwalks filter t, ?_⟩
        refine (ready_procTurn fuel ht hmany).mono fun s hs => ?_
        cases s with
        | inl u => exact hs
        | inr r => trivial
      exact (Outcome.delivers_iterate Ready left hturn h hfuel).ends

theorem closeProcessIterator_ends (env : Answers) (it : Iterator) :
    (closeProcessIterator env it).Ends :=
  (readField_ends it.procs).bind fun _ => (readField_ends it.kd).bind fun kd =>
    (closeHandle_ends kd it.descriptor).bind fun _ => Outcome.ends_returned

/-- A session with a descriptor is over after as many turns as there are processes, with
the descriptor closed. -/
theorem session_delivers (filter : ProcessFilter) (hopen : env.openfiles = true)
    {procs : List KinfoProc} (hprocs : env.getprocs = some procs) (hwalks : WalksEnd env fuel)
    (hfuel : procs.length < fuel) :
    ((backend env filter).session fuel).Delivers fun s => s.2.descriptor ≠ .opened := by
  have hinit : (initProcessIterator env filter).Delivers fun s =>
      Ready s.2 ∧ left s.2 < fuel := by
    rw [initProcessIterator, hopen, hprocs]
    cases env.errbuf with
    | false => exact ⟨Outcome.ends_exited, trivial⟩
    | true =>
      cases env.procs with
      | false => exact ⟨Outcome.ends_exited, trivial⟩
      | true =>
        refine ⟨Outcome.ends_returned,
          ⟨rfl, rfl, by simp, by simp, procs, procs.length, rfl, rfl, le_rfl⟩, ?_⟩
        simpa [left] using hfuel
  have hclose : ∀ it, Ready it →
      (closeProcessIterator env it).Delivers fun s => s.2.descriptor ≠ .opened :=
    fun it hit => ⟨closeProcessIterator_ends env it, closed_closeProcessIterator hit⟩
  exact Backend.session_delivers (b := backend env filter) hinit (fun it hit hleft =>
    ⟨getNextProcess_ends hwalks hit hleft, ready_getNextProcess fuel hit⟩) hclose

end Kvm

end CpuLimit
