import CpuLimit.Library.Fuel
import CpuLimit.Library.ParentTree
import CpuLimit.Library.Topmost
import CpuLimit.ChildOf

/-!
# Finding the target

`find_process_by_pid` and `find_process_by_name`. The search by name is one pass
over the processes that `get_next_process` yields. It compares the last parts of
two path names, and of several processes with the name it keeps one that stands
highest in the tree.
-/
namespace CpuLimit

open Library

/-- The position of the last occurrence of a character. -/
def strrchr (c : Char) : List Char → Option ℕ
  | [] => none
  | d :: rest =>
    match strrchr c rest with
    | some i => some (i + 1)
    | none => if d = c then some 0 else none

/-- The macro `basename`. -/
def basename (path : List Char) : List Char :=
  match strrchr '/' path with
  | some i => path.drop (i + 1)
  | none => path

/-- `strncmp` of two strings is 0. -/
def strncmpIsZero : ℕ → List Char → List Char → Bool
  | 0, _, _ => true
  | _ + 1, [], [] => true
  | n + 1, c :: s, d :: t => c = d && strncmpIsZero n s t
  | _ + 1, _, _ => false

/-- `sizeof(proc->command)`. -/
def commandSize : ℕ := pathMax

/-- A positive result is the `pid`, which may be signalled. -/
def findProcessByPid (killSucceeds : Pid → Bool) (pid : Pid) : Pid :=
  if killSucceeds pid then pid else -pid

/-- One turn of the loop of `find_process_by_name`. -/
def findStep (isChildOf : Pid → Pid → Bool) (processBasename : List Char) (pid : Pid)
    (proc : Process) : Pid :=
  if strncmpIsZero commandSize (basename proc.command) processBasename then
    if pid < 0 || isChildOf pid proc.pid then proc.pid else pid
  else pid

/-- `find_process_by_name` over the processes that `get_next_process` yields. -/
def findProcessByName (isChildOf : Pid → Pid → Bool) (killSucceeds : Pid → Bool)
    (yielded : List Process) (processName : List Char) : Pid :=
  let pid := yielded.foldl (findStep isChildOf (basename processName)) (-1)
  if 0 < pid then findProcessByPid killSucceeds pid else 0

/-- The processes at one moment: their parent links, which form a forest, and those
of them that `get_next_process` yields, in any order. Each has its command in a
buffer that ends with the string. -/
structure Snapshot where
  parent : Pid → Option Pid
  forest : ∀ pid, ¬ ParentTree.Ancestor parent pid pid
  yielded : List Process
  pid_pos : ∀ p ∈ yielded, 0 < p.pid
  command_fits : ∀ p ∈ yielded, p.command.length < commandSize

/-- The command has the name that is looked for. -/
def Named (processName : List Char) (p : Process) : Prop :=
  basename p.command = basename processName

instance (processName : List Char) (p : Process) : Decidable (Named processName p) :=
  inferInstanceAs (Decidable (_ = _))

/-! ## Names -/

theorem strncmpIsZero_iff {n : ℕ} {s t : List Char} (h : s.length < n) :
    strncmpIsZero n s t = true ↔ s = t := by
  induction n generalizing s t with
  | zero => omega
  | succ n ih =>
    cases s with
    | nil => cases t <;> simp [strncmpIsZero]
    | cons c s =>
      cases t with
      | nil => simp [strncmpIsZero]
      | cons d t =>
        rw [List.length_cons] at h
        simp [strncmpIsZero, ih (s := s) (t := t) (by omega)]

theorem length_basename_le (path : List Char) : (basename path).length ≤ path.length := by
  unfold basename
  split
  · simp
  · exact le_rfl

/-- The limit of the comparison is the size of the buffer, which no command fills. -/
theorem strncmpIsZero_iff_named {p : Process} (h : p.command.length < commandSize)
    (processName : List Char) :
    strncmpIsZero commandSize (basename p.command) (basename processName) = true ↔
      Named processName p :=
  strncmpIsZero_iff ((length_basename_le p.command).trans_lt h)

/-! ## The pass -/

namespace Snapshot

variable (s : Snapshot) (processName : List Char)

/-- The processes with the name, in the order of the pass. -/
def named : List Pid := (s.yielded.filter fun p => Named processName p).map Process.pid

theorem mem_named {pid : Pid} : pid ∈ s.named processName ↔
    ∃ p ∈ s.yielded, Named processName p ∧ p.pid = pid := by
  simp [named, and_assoc]

theorem named_pos : ∀ pid ∈ s.named processName, 0 < pid := by
  intro pid hpid
  obtain ⟨p, hp, -, rfl⟩ := (s.mem_named processName).mp hpid
  exact s.pid_pos p hp

instance : IsStrictOrder Pid (ParentTree.Ancestor s.parent) where
  irrefl := s.forest
  trans _ _ _ hxy hyz := Relation.TransGen.trans hyz hxy

open Classical

variable {isChildOf : Pid → Pid → Bool}

/-- On the processes with the name, `is_child_of` is the ancestor relation. -/
def SeesAncestors (isChildOf : Pid → Pid → Bool) : Prop :=
  ∀ c ∈ s.named processName, ∀ a ∈ s.named processName,
    isChildOf c a = true ↔ ParentTree.Ancestor s.parent a c

/-- Other processes do not matter, and once there is a candidate, it climbs. -/
theorem foldl_findStep :
    s.yielded.foldl (findStep isChildOf (basename processName)) (-1) =
      (s.named processName).foldl
        (fun pid x => if pid < 0 || isChildOf pid x then x else pid) (-1) := by
  rw [named, List.foldl_map, List.foldl_filter]
  refine List.foldl_ext _ _ _ fun pid p hp => ?_
  simp only [findStep, strncmpIsZero_iff_named (s.command_fits p hp) processName,
    decide_eq_true_eq]

variable {s processName}

theorem SeesAncestors.foldl_eq (h : s.SeesAncestors processName isChildOf) {pid : Pid}
    (hpid : pid ∈ s.named processName) {l : List Pid} (hl : ∀ x ∈ l, x ∈ s.named processName) :
    l.foldl (fun pid x => if pid < 0 || isChildOf pid x then x else pid) pid =
      l.foldl (Topmost.climb (ParentTree.Ancestor s.parent)) pid := by
  induction l generalizing pid with
  | nil => rfl
  | cons x l ih =>
    rw [List.forall_mem_cons] at hl
    have hpos : ¬ pid < 0 := not_lt.mpr (s.named_pos processName pid hpid).le
    have hstep : (if pid < 0 || isChildOf pid x then x else pid) =
        Topmost.climb (ParentTree.Ancestor s.parent) pid x := by
      simp only [Topmost.climb, Bool.or_eq_true, decide_eq_true_eq, hpos, h pid hpid x hl.1,
        false_or]
    have hnext : Topmost.climb (ParentTree.Ancestor s.parent) pid x ∈ s.named processName := by
      unfold Topmost.climb
      split_ifs
      · exact hl.1
      · exact hpid
    rw [List.foldl_cons, List.foldl_cons, hstep]
    exact ih hnext hl.2

/-- What the pass keeps: nothing without a process of the name, and else one that no
other is above. -/
theorem SeesAncestors.foldl_findStep_spec (h : s.SeesAncestors processName isChildOf) :
    (s.named processName = [] ∧
        s.yielded.foldl (findStep isChildOf (basename processName)) (-1) = -1) ∨
      s.yielded.foldl (findStep isChildOf (basename processName)) (-1) ∈ s.named processName ∧
        ∀ x ∈ s.named processName, ¬ ParentTree.Ancestor s.parent x
          (s.yielded.foldl (findStep isChildOf (basename processName)) (-1)) := by
  rw [foldl_findStep]
  cases hnamed : s.named processName with
  | nil => exact Or.inl ⟨rfl, rfl⟩
  | cons pid l =>
    have hall : ∀ x ∈ pid :: l, x ∈ s.named processName := by rw [hnamed]; exact fun _ => id
    rw [List.forall_mem_cons] at hall
    have hfirst : (if (-1 : Pid) < 0 || isChildOf (-1) pid then pid else -1) = pid := by simp
    rw [List.foldl_cons, hfirst, h.foldl_eq hall.1 hall.2]
    obtain ⟨hup, hmem, htop⟩ := Topmost.foldl_climb (ParentTree.Ancestor s.parent) l pid
    refine Or.inr ⟨hmem, List.forall_mem_cons.mpr ⟨?_, htop⟩⟩
    intro hanc
    rcases hup with he | hup
    · rw [he] at hanc
      exact s.forest pid hanc
    · exact s.forest pid (Relation.TransGen.trans hup hanc)

end Snapshot

/-! ## The result -/

theorem findProcessByPid_spec (killSucceeds : Pid → Bool) {pid : Pid} (h : 0 < pid) :
    findProcessByPid killSucceeds pid ≠ 0 ∧ |findProcessByPid killSucceeds pid| = pid ∧
      (0 < findProcessByPid killSucceeds pid ↔ killSucceeds pid = true) := by
  unfold findProcessByPid
  split_ifs with hkill
  · exact ⟨h.ne', abs_of_pos h, by simp [h, hkill]⟩
  · exact ⟨neg_ne_zero.mpr h.ne', by rw [abs_neg, abs_of_pos h], by simp [h.le, hkill]⟩

/-- What a search by name should find: 0 if there is no process of the name, and else
the `pid` of one that has no other above it, negative if that cannot be signalled. -/
structure FindsTopmost (s : Snapshot) (processName : List Char) (killSucceeds : Pid → Bool)
    (result : Pid) : Prop where
  zero_iff : result = 0 ↔ ∀ p ∈ s.yielded, ¬ Named processName p
  topmost : result ≠ 0 → ∃ p ∈ s.yielded, Named processName p ∧ |result| = p.pid ∧
    (∀ q ∈ s.yielded, Named processName q → ¬ ParentTree.Ancestor s.parent q.pid p.pid) ∧
      (0 < result ↔ killSucceeds p.pid = true)
  above_all : ∀ top ∈ s.yielded, Named processName top →
    (∀ q ∈ s.yielded, Named processName q →
      q.pid = top.pid ∨ ParentTree.Ancestor s.parent top.pid q.pid) → |result| = top.pid

theorem Snapshot.SeesAncestors.findsTopmost {s : Snapshot} {processName : List Char}
    {isChildOf : Pid → Pid → Bool} (h : s.SeesAncestors processName isChildOf)
    (killSucceeds : Pid → Bool) :
    FindsTopmost s processName killSucceeds
      (findProcessByName isChildOf killSucceeds s.yielded processName) := by
  rcases h.foldl_findStep_spec with ⟨hnone, hpid⟩ | ⟨hmem, htop⟩
  · have hresult : findProcessByName isChildOf killSucceeds s.yielded processName = 0 := by
      simp [findProcessByName, hpid]
    have hno : ∀ p ∈ s.yielded, ¬ Named processName p := by
      intro p hp hname
      have hin := (s.mem_named processName).mpr ⟨p, hp, hname, rfl⟩
      simp [hnone] at hin
    exact ⟨⟨fun _ => hno, fun _ => hresult⟩, fun hne => absurd hresult hne,
      fun top hin hname => absurd hname (hno top hin)⟩
  · obtain ⟨p, hp, hname, hpid⟩ := (s.mem_named processName).mp hmem
    rw [← hpid] at htop
    have hresult : findProcessByName isChildOf killSucceeds s.yielded processName =
        findProcessByPid killSucceeds p.pid := by
      simp only [findProcessByName, ← hpid, s.pid_pos p hp, if_true]
    obtain ⟨hne, habs, hsign⟩ := findProcessByPid_spec killSucceeds (s.pid_pos p hp)
    have hnotAbove : ∀ q ∈ s.yielded, Named processName q →
        ¬ ParentTree.Ancestor s.parent q.pid p.pid := fun q hq hqname =>
      htop q.pid ((s.mem_named processName).mpr ⟨q, hq, hqname, rfl⟩)
    rw [hresult]
    refine ⟨⟨fun he => absurd he hne, fun hno => absurd hname (hno p hp)⟩,
      fun _ => ⟨p, hp, hname, habs, hnotAbove, hsign⟩, fun top hin hnamed hall => ?_⟩
    rcases hall p hp hname with he | hanc
    · rw [habs, he]
    · exact absurd hanc (hnotAbove top hin hnamed)

/-- With the ancestor relation of the snapshot for `is_child_of`, the search finds a
topmost process of the name, in whichever order the processes come. -/
theorem findProcessByName_topmost (s : Snapshot) {isChildOf : Pid → Pid → Bool}
    (hchild : ∀ c a, isChildOf c a = true ↔ ParentTree.Ancestor s.parent a c)
    (killSucceeds : Pid → Bool) (processName : List Char) :
    FindsTopmost s processName killSucceeds
      (findProcessByName isChildOf killSucceeds s.yielded processName) :=
  Snapshot.SeesAncestors.findsTopmost (fun c _ a _ => hchild c a) killSucceeds

/-- A login shell 20, a shell 30 that it has started, and shells of another name,
seen from the bottom up. -/
def shells : Snapshot where
  parent := fun pid => if pid = 30 then some 20 else if pid = 20 then some 10 else none
  forest := by
    refine ParentTree.acyclic_of_lt fun c a h => ?_
    split_ifs at h with h30 h20
    · cases h; subst h30; decide
    · cases h; subst h20; decide
  yielded := [⟨30, 20, 0, 0, "sh".toList⟩, ⟨40, 1, 0, 0, "/bin/ash".toList⟩,
    ⟨20, 10, 0, 0, "/bin/sh".toList⟩, ⟨10, 1, 0, 0, "login".toList⟩]
  pid_pos := by decide
  command_fits := by decide

/-- The ancestor relation of these shells. -/
def shellChildOf (c a : Pid) : Bool :=
  (c = 30 && (20 = a || 10 = a)) || (c = 20 && 10 = a)

theorem shellChildOf_iff (c a : Pid) :
    shellChildOf c a = true ↔ ParentTree.Ancestor shells.parent a c := by
  have hten : ¬ ParentTree.Ancestor shells.parent a 10 := ParentTree.not_ancestor_of_root rfl
  have hlink20 : shells.parent 20 = some 10 := rfl
  have hlink30 : shells.parent 30 = some 20 := rfl
  have htwenty : ParentTree.Ancestor shells.parent a 20 ↔ 10 = a := by
    rw [ParentTree.ancestor_iff, hlink20]
    simp [hten]
  by_cases h30 : c = 30
  · rw [h30, ParentTree.ancestor_iff, hlink30]
    simp [htwenty, shellChildOf]
  by_cases h20 : c = 20
  · rw [h20, htwenty]
    simp [shellChildOf]
  · have hroot : ¬ ParentTree.Ancestor shells.parent a c :=
      ParentTree.not_ancestor_of_root (by simp [shells, h30, h20])
    simp [shellChildOf, h30, h20, hroot]

/-- The search for "/usr/bin/sh" finds the login shell. -/
theorem findProcessByName_topmost_shells :
    findProcessByName shellChildOf (fun _ => true) shells.yielded "/usr/bin/sh".toList = 20 ∧
      FindsTopmost shells "/usr/bin/sh".toList (fun _ => true)
        (findProcessByName shellChildOf (fun _ => true) shells.yielded "/usr/bin/sh".toList) :=
  ⟨by decide +kernel,
    findProcessByName_topmost shells shellChildOf_iff (fun _ => true) "/usr/bin/sh".toList⟩

/-! ## On Linux -/

/-- The processes that Linux yields, with the links that `getppid_of` shows. -/
def Os.snapshot (os : Os) (hacyclic : os.Acyclic) (yielded : List Process)
    (pid_pos : ∀ p ∈ yielded, 0 < p.pid)
    (command_fits : ∀ p ∈ yielded, p.command.length < commandSize) : Snapshot :=
  ⟨os.shownParent, hacyclic, yielded, pid_pos, command_fits⟩

open Classical in
/-- The Linux `is_child_of` is good enough for the search, unless process 1 has the
name: it counts as an ancestor without a look at the links. -/
theorem findProcessByName_linux {os : Os} (hacyclic : os.Acyclic) (hgrow : os.StartTimesGrow)
    {yielded : List Process} (pid_pos : ∀ p ∈ yielded, 0 < p.pid)
    (command_fits : ∀ p ∈ yielded, p.command.length < commandSize) {processName : List Char}
    (hinit : ∀ p ∈ yielded, Named processName p → p.pid ≠ 1) (killSucceeds : Pid → Bool) :
    ∃ enough, ∀ fuel, enough ≤ fuel →
      FindsTopmost (os.snapshot hacyclic yielded pid_pos command_fits) processName killSucceeds
        (findProcessByName (fun c a => os.isChildOf fuel c a = some true) killSucceeds yielded
          processName) := by
  let s := os.snapshot hacyclic yielded pid_pos command_fits
  let answer := fun x : Pid × Pid =>
    decide (ParentTree.Ancestor os.shownParent x.2 x.1 ∨ x.2 = 1 ∧ 1 < x.1)
  have hreturns : ∀ x ∈ s.named processName ×ˢ s.named processName,
      Fuel.Returns (fun fuel (x : Pid × Pid) => os.isChildOf fuel x.1 x.2) x (answer x) :=
    fun x _ => Os.isChildOf_returns hacyclic hgrow x.1 x.2
  obtain ⟨enough, henough⟩ := Fuel.Returns.forall_mem hreturns
  refine ⟨enough, fun fuel hfuel => ?_⟩
  refine Snapshot.SeesAncestors.findsTopmost (s := s) (fun c hc a ha => ?_) killSucceeds
  have hanswer := henough fuel hfuel (c, a) (List.mem_product.mpr ⟨hc, ha⟩)
  obtain ⟨p, hp, hname, rfl⟩ := (s.mem_named processName).mp ha
  have hone : p.pid ≠ 1 := hinit p hp hname
  simp only at hanswer
  simp [hanswer, answer, hone, s, Os.snapshot]

end CpuLimit
