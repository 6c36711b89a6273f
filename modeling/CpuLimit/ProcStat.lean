import CpuLimit.Basic
import CpuLimit.Library.Scanf

/-!
# Reading /proc/[pid]/stat

`read_process_info` and `getppid_of` of `process_iterator_linux.c`, over the
contents of the two files they open. The kernel's line puts the command name,
which the process chooses, between parentheses in the middle of the line.
-/
namespace CpuLimit

open Library.Scanf

/-- `sizeof` of the `command` field, `PATH_MAX`. -/
def pathMax : ℕ := 4096

/-- `fgets`: a line of at most `size - 1` characters, or `NULL` at the end of the file. -/
def fgets (size : ℕ) (content : List Char) : Option (List Char) :=
  if content = [] then none
  else
    let line := content.take (size - 1)
    some (line.takeWhile (· ≠ '\n') ++ (line.dropWhile (· ≠ '\n')).take 1)

/-- The string that a buffer holds. -/
def cString (buffer : List Char) : List Char := buffer.takeWhile (· ≠ '\x00')

/-- The values that `%ld` can store; longer numbers are clamped. -/
def toLong (n : ℤ) : ℤ := max (-9223372036854775808) (min n 9223372036854775807)

/-- The conversion of a `long` to `pid_t`. -/
def toPid (n : ℤ) : Pid := n.bmod 4294967296

/-- The fields of `struct process` that `read_process_info` sets. -/
structure ProcessInfo where
  pid : Pid
  ppid : Pid
  cputime : FloatValue
  command : List Char
  deriving DecidableEq

def readFormat : List Directive :=
  parseFormat
    "%*d (%*[^)]) %c %ld %*d %*d %*d %*d %*d %*d %*d %*d %*d %lf %lf".toList

def getppidFormat : List Directive := parseFormat "%*d (%*[^)]) %*c %ld".toList

/-- `strchr("ZXx", state) != NULL`; the terminator is part of the string. -/
def isZombieState (state : Char) : Bool := state ∈ [ 'Z', 'X', 'x', '\x00']

/-- `read_process_info`, from the contents of the command line and stat files;
a missing file is one that could not be opened. -/
def readProcessInfo (clkTck : ℕ) (pid : Pid) (cmdline stat : Option (List Char)) :
    Option ProcessInfo :=
  (cmdline.bind (fgets pathMax)).bind fun buffer =>
    stat.bind fun content =>
      match scan readFormat content with
      | [.char state, .int ppid, .float usertime, .float systime] =>
        if isZombieState state then none
        else some {
          pid := pid
          ppid := toPid (toLong ppid)
          cputime := ((usertime.add systime).scale 1000).scale (1 / clkTck)
          command := cString buffer }
      | _ => none

/-- `getppid_of`. -/
def getppidOf (pid : Pid) (stat : Option (List Char)) : Pid :=
  if pid ≤ 0 then -1
  else
    match stat with
    | none => -1
    | some content =>
      match scan getppidFormat content with
      | [.int ppid] => toPid (toLong ppid)
      | _ => -1

/-! ## The kernel's line -/

/-- What the kernel knows about a process, as far as its stat line shows it.
After `stime` the line goes on with a space or a newline, if at all. -/
structure StatRecord where
  pid : Pid
  comm : List Char
  state : Char
  ppid : Pid
  fields : List ℤ
  utime : ℕ
  stime : ℕ
  trailing : List Char
  pid_pos : 0 < pid
  comm_text : ∀ c ∈ comm, c ≠ '\x00' ∧ c ≠ '\n'
  state_visible : isSpace state = false ∧ state ≠ '\x00'
  ppid_range : -2147483648 ≤ ppid ∧ ppid < 2147483648
  fields_length : fields.length = 9
  trailing_ends : Ends trailing

namespace StatRecord

/-- The fields after the state. -/
def numbers (r : StatRecord) : List Char :=
  ' ' :: (decimal r.ppid ++ (r.fields.flatMap (fun n => ' ' :: decimal n) ++
    ' ' :: (Nat.toDigits 10 r.utime ++ ' ' :: (Nat.toDigits 10 r.stime ++ r.trailing))))

/-- The stat line. -/
def line (r : StatRecord) : List Char :=
  decimal r.pid ++ ' ' :: '(' :: (r.comm ++ ')' :: ' ' :: r.state :: r.numbers)

/-- Both readers recover the record from its line. Given a command line, only a
zombie or dead state makes `read_process_info` fail. -/
def Parsed (r : StatRecord) : Prop :=
  getppidOf r.pid (some r.line) = r.ppid ∧
  ∀ (clkTck : ℕ) (cmdline buffer : List Char), fgets pathMax cmdline = some buffer →
    (readProcessInfo clkTck r.pid (some cmdline) (some r.line) = none ↔
      r.state = 'Z' ∨ r.state = 'X' ∨ r.state = 'x') ∧
    ∀ info, readProcessInfo clkTck r.pid (some cmdline) (some r.line) = some info →
      info.pid = r.pid ∧ info.ppid = r.ppid ∧
      info.cputime = .finite (((r.utime : ℚ) + r.stime) * 1000 / clkTck) ∧
      info.command = cString buffer

end StatRecord

/-! ## Scanning the line -/

/-- Both formats begin with "%*d (%*[^)]) ". -/
def headerFormat : List Directive :=
  [.convert false .int, .space, .literal '(', .convert false (.until ')'), .literal ')', .space]

theorem readFormat_eq (ns : List ℤ) (hns : ns.length = 9) :
    readFormat = headerFormat ++ .convert true .char :: .space :: .convert true .int ::
      (ns.flatMap (fun _ => [.space, .convert false .int]) ++
        [.space, .convert true .float, .space, .convert true .float]) := by
  have hflat : ns.flatMap (fun _ => [Directive.space, .convert false .int]) =
      (List.replicate 9 [Directive.space, .convert false .int]).flatten := by
    rw [← hns, List.flatMap_def, List.map_const']
  rw [hflat]
  decide +kernel

theorem getppidFormat_eq : getppidFormat =
    headerFormat ++ [.convert false .char, .space, .convert true .int] := by
  decide +kernel

section Header

variable (directives : List Directive) (pid : Pid) {name : List Char} (rest : List Char)

/-- The header takes a nonempty name up to the first closing parenthesis. -/
theorem scan_header (hne : name ≠ []) (hname : ')' ∉ name) :
    scan (headerFormat ++ directives) (decimal pid ++ ' ' :: '(' :: (name ++ ')' :: rest)) =
      scan directives (skipSpace rest) := by
  have hint : scanInt (decimal pid ++ ' ' :: '(' :: (name ++ ')' :: rest)) = some (pid, _) :=
    scanInt_decimal pid (notHead_cons.mpr (by decide))
  have hitem : ∀ c ∈ name, decide (c ≠ ')') = true := by
    intro c hc
    rw [decide_eq_true_eq]
    rintro rfl
    exact hname hc
  obtain ⟨htake, hdrop⟩ := takeWhile_append_notHead name (')' :: rest) hitem
    (notHead_cons.mpr (by decide))
  have hopen : skipSpace (' ' :: '(' :: (name ++ ')' :: rest)) = '(' :: (name ++ ')' :: rest) := by
    rw [skipSpace_space]
    exact skipSpace_of_notHead (notHead_cons.mpr (by decide))
  simp only [headerFormat, List.cons_append, List.nil_append, scan, Conversion.scan, hint,
    Option.map_some, hopen, htake, hdrop, hne, if_true, if_false, Bool.false_eq_true]

/-- An empty name is no item of the scan set. -/
theorem scan_header_nil :
    scan (headerFormat ++ directives) (decimal pid ++ ' ' :: '(' :: ')' :: rest) = [] := by
  have hint : scanInt (decimal pid ++ ' ' :: '(' :: ')' :: rest) = some (pid, _) :=
    scanInt_decimal pid (notHead_cons.mpr (by decide))
  have hopen : skipSpace (' ' :: '(' :: ')' :: rest) = '(' :: ')' :: rest := by
    rw [skipSpace_space]
    exact skipSpace_of_notHead (notHead_cons.mpr (by decide))
  simp [headerFormat, scan, Conversion.scan, hint, hopen]

end Header

theorem toPid_toLong {ppid : ℤ} (h : -2147483648 ≤ ppid ∧ ppid < 2147483648) :
    toPid (toLong ppid) = ppid := by
  have hlong : toLong ppid = ppid := by
    unfold toLong
    omega
  rw [hlong, toPid]
  exact Int.bmod_eq_of_le (by omega) (by omega)

theorem isZombieState_iff {state : Char} (h : state ≠ '\x00') :
    isZombieState state = true ↔ state = 'Z' ∨ state = 'X' ∨ state = 'x' := by
  simp [isZombieState, h]

namespace StatRecord

variable (r : StatRecord)

theorem skipSpace_state : skipSpace (' ' :: r.state :: r.numbers) = r.state :: r.numbers := by
  rw [skipSpace_space]
  exact skipSpace_of_notHead (notHead_cons.mpr r.state_visible.1)

theorem notHead_afterPpid : NotHead Char.isDigit (r.fields.flatMap (fun n => ' ' :: decimal n) ++
    ' ' :: (Nat.toDigits 10 r.utime ++ ' ' :: (Nat.toDigits 10 r.stime ++ r.trailing))) := by
  cases r.fields with
  | nil => exact notHead_cons.mpr (by decide)
  | cons n ns => exact notHead_cons.mpr (by decide)

theorem scan_getppidFormat (hne : r.comm ≠ []) (hcomm : ')' ∉ r.comm) :
    scan getppidFormat r.line = [.int r.ppid] := by
  rw [getppidFormat_eq, line, scan_header _ r.pid _ hne hcomm, skipSpace_state]
  have hint := scan_int [] true r.ppid r.notHead_afterPpid
  simpa only [scan, Conversion.scan, numbers, if_true, Bool.false_eq_true, if_false] using hint

theorem scan_readFormat (hne : r.comm ≠ []) (hcomm : ')' ∉ r.comm) :
    scan readFormat r.line =
      [.char r.state, .int r.ppid, .float (.finite r.utime), .float (.finite r.stime)] := by
  rw [readFormat_eq r.fields r.fields_length, line, scan_header _ r.pid _ hne hcomm,
    skipSpace_state]
  have hspace : Ends (' ' :: (Nat.toDigits 10 r.stime ++ r.trailing)) := by
    simp [Ends, isSpace]
  have hnums := calc
    scan (.space :: .convert true .int :: (r.fields.flatMap (fun _ =>
        [.space, .convert false .int]) ++
          [.space, .convert true .float, .space, .convert true .float])) r.numbers
    _ = .int r.ppid :: scan (r.fields.flatMap (fun _ => [.space, .convert false .int]) ++
          [.space, .convert true .float, .space, .convert true .float])
        (r.fields.flatMap (fun n => ' ' :: decimal n) ++ ' ' :: (Nat.toDigits 10 r.utime ++
          ' ' :: (Nat.toDigits 10 r.stime ++ r.trailing))) :=
      scan_int _ true r.ppid r.notHead_afterPpid
    _ = .int r.ppid :: scan [.space, .convert true .float, .space, .convert true .float]
        (' ' :: (Nat.toDigits 10 r.utime ++ ' ' :: (Nat.toDigits 10 r.stime ++ r.trailing))) := by
      rw [scan_ints _ r.fields (notHead_cons.mpr (by decide))]
    _ = [.int r.ppid, .float (.finite r.utime), .float (.finite r.stime)] := by
      rw [scan_float _ true r.utime hspace, if_pos rfl,
        scan_float _ true r.stime r.trailing_ends, if_pos rfl]
      rfl
  simpa only [scan, Conversion.scan, if_true] using congrArg (List.cons (.char r.state)) hnums

/-- A name that the scan set takes whole lets both readers recover the record. -/
theorem parsed_of_comm (hne : r.comm ≠ []) (hcomm : ')' ∉ r.comm) : r.Parsed := by
  have hpid := toPid_toLong r.ppid_range
  have hzombie := isZombieState_iff r.state_visible.2
  refine ⟨?_, fun clkTck cmdline buffer hbuffer => ?_⟩
  · simp only [getppidOf, if_neg (not_le.mpr r.pid_pos), r.scan_getppidFormat hne hcomm, hpid]
  · simp only [readProcessInfo, Option.bind_some, hbuffer, r.scan_readFormat hne hcomm, hpid]
    by_cases hz : isZombieState r.state = true
    · simp [hz, hzombie.mp hz]
    · have hz' : ¬ (r.state = 'Z' ∨ r.state = 'X' ∨ r.state = 'x') := fun h => hz (hzombie.mpr h)
      simp only [hz, if_false, Bool.false_eq_true, reduceCtorEq, hz', Option.some.injEq, true_and]
      intro info hinfo
      subst hinfo
      refine ⟨rfl, rfl, ?_, rfl⟩
      simp [FloatValue.add, FloatValue.scale, div_eq_mul_inv]

end StatRecord

/-! ## Names with a closing parenthesis -/

/-- The last steps of `getppid_of` on a text: one character, then an integer. -/
theorem scan_char_int (c : Char) (input : List Char) :
    scan [.convert false .char, .space, .convert true .int] (c :: input) =
      ((scanInt input).map Prod.fst).toList.map .int := by
  simp only [scan, Conversion.scan, Bool.false_eq_true, if_false, if_true, scanInt_skipSpace]
  cases scanInt input <;> rfl

/-- After the first parenthesis of a name with two, the result is decided by the
rest of the name: the scan does not get past its final parenthesis. -/
theorem scan_name_rest (suffix rest rest' : List Char) :
    scan [.convert false .char, .space, .convert true .int]
        (skipSpace (suffix ++ ')' :: ' ' :: 'S' :: rest)) =
      scan [.convert false .char, .space, .convert true .int]
        (skipSpace (suffix ++ ')' :: ' ' :: 'S' :: rest')) := by
  have hspace : isSpace ')' = false := by decide
  rw [skipSpace_append_stop _ _ hspace, skipSpace_append_stop _ _ hspace]
  cases skipSpace suffix with
  | nil =>
    have hfail : ∀ rest, scanInt (' ' :: 'S' :: rest) = none := by
      intro rest
      have hskip : skipSpace ('S' :: rest) = 'S' :: rest :=
        skipSpace_of_notHead (notHead_cons.mpr (by decide))
      have hsign : scanSign ('S' :: rest) = (false, 'S' :: rest) := rfl
      have hdigit : Char.isDigit 'S' = false := by decide
      rw [scanInt_space]
      simp [scanInt, hskip, hsign, hdigit]
    rw [List.nil_append, List.nil_append, scan_char_int, scan_char_int, hfail, hfail]
  | cons c suffix =>
    rw [List.cons_append, List.cons_append, scan_char_int, scan_char_int,
      scanInt_append_stop _ _ hspace (by decide) rfl,
      scanInt_append_stop _ _ hspace (by decide) rfl]

namespace StatRecord

/-- A sleeping process that has not run yet. -/
def sleeping (pid : Pid) (hpid : 0 < pid) (comm : List Char)
    (hcomm : ∀ c ∈ comm, c ≠ '\x00' ∧ c ≠ '\n') (ppid : Pid) (hppid : ppid = 0 ∨ ppid = 1) :
    StatRecord where
  pid := pid
  comm := comm
  state := 'S'
  ppid := ppid
  fields := List.replicate 9 0
  utime := 0
  stime := 0
  trailing := []
  pid_pos := hpid
  comm_text := hcomm
  state_visible := by decide
  ppid_range := by rcases hppid with rfl | rfl <;> decide
  fields_length := by simp
  trailing_ends := by simp [Ends]

/-- With a parenthesis in the name, or no name, `getppid_of` does not see the parent. -/
theorem getppidOf_sleeping (pid : Pid) (hpid : 0 < pid) {comm : List Char}
    (hcomm : ∀ c ∈ comm, c ≠ '\x00' ∧ c ≠ '\n') (h : comm = [] ∨ ')' ∈ comm) :
    getppidOf pid (some (sleeping pid hpid comm hcomm 0 (Or.inl rfl)).line) =
      getppidOf pid (some (sleeping pid hpid comm hcomm 1 (Or.inr rfl)).line) := by
  have hscan : scan getppidFormat (sleeping pid hpid comm hcomm 0 (Or.inl rfl)).line =
      scan getppidFormat (sleeping pid hpid comm hcomm 1 (Or.inr rfl)).line := by
    simp only [getppidFormat_eq, line, sleeping]
    rcases h with rfl | hmem
    · simp only [List.nil_append, scan_header_nil]
    · obtain ⟨name, suffix, rfl, hname⟩ := List.eq_append_cons_of_mem hmem
      simp only [List.append_assoc, List.cons_append]
      by_cases hne : name = []
      · simp only [hne, List.nil_append, scan_header_nil]
      · rw [scan_header _ pid _ hne hname, scan_header _ pid _ hne hname]
        exact scan_name_rest suffix _ _
  simp only [getppidOf, hscan]

/-- Both readers recover every record of a process with this name exactly if the
name is not empty and has no closing parenthesis. -/
theorem parsed_iff_comm (pid : Pid) (hpid : 0 < pid) (comm : List Char)
    (hcomm : ∀ c ∈ comm, c ≠ '\x00' ∧ c ≠ '\n') :
    (∀ r : StatRecord, r.pid = pid → r.comm = comm → r.Parsed) ↔ comm ≠ [] ∧ ')' ∉ comm := by
  constructor
  · intro hall
    by_contra hbad
    have hcases : comm = [] ∨ ')' ∈ comm := by tauto
    have heq := getppidOf_sleeping pid hpid hcomm hcases
    have hzero := (hall (sleeping pid hpid comm hcomm 0 (Or.inl rfl)) rfl rfl).1
    have hone := (hall (sleeping pid hpid comm hcomm 1 (Or.inr rfl)) rfl rfl).1
    have hne : (0 : ℤ) = 1 := hzero.symm.trans (heq.trans hone)
    omega
  · rintro ⟨hne, hparen⟩ r - rfl
    exact r.parsed_of_comm hne hparen

/-- A space and an opening parenthesis in the name are no obstacle. -/
theorem parsed_iff_comm_spaced :
    (sleeping 7 (by decide) "a (b".toList (by simp) 1 (Or.inr rfl)).Parsed :=
  (parsed_iff_comm 7 (by decide) "a (b".toList (by simp)).mpr (by decide) _ rfl rfl

/-- The parent of a process named "a)" is not found. -/
theorem not_parsed_paren :
    ¬ (sleeping 7 (by decide) "a)".toList (by simp) 1 (Or.inr rfl)).Parsed := by
  intro h
  have hfail : getppidOf 7
      (some (sleeping 7 (by decide) "a)".toList (by simp) 1 (Or.inr rfl)).line) = -1 := by
    decide +kernel
  have hne : (1 : ℤ) = -1 := h.1.symm.trans hfail
  omega

end StatRecord

end CpuLimit
