import CpuLimit.Library.Getopt
import CpuLimit.Library.Strto
import CpuLimit.FindProcess
import CpuLimit.SelfLimit

/-!
# The arguments of the program

`main` from the command line to the target that it limits: the loop over the options,
in which a later occurrence overrides an earlier one, the validation after it, and a
turn of the loop that searches for the target. The limit stays a floating-point value
here, and the `pid` has gone through the conversion of a `long` to `pid_t`.
-/
namespace CpuLimit.Arguments

open Library Library.Getopt Library.Scanf

/-! ## Parsing -/

def shortOptions : List Char := "p:e:l:vzih".toList

def longOptions : List LongOption := [
  ⟨"pid".toList, true, 'p'⟩,
  ⟨"exe".toList, true, 'e'⟩,
  ⟨"limit".toList, true, 'l'⟩,
  ⟨"verbose".toList, false, 'v'⟩,
  ⟨"lazy".toList, false, 'z'⟩,
  ⟨"include-children".toList, false, 'i'⟩,
  ⟨"help".toList, false, 'h'⟩]

def spec : Spec := ⟨shortOptions, longOptions⟩

/-- What `get_pid_max` reads: a file on Linux, a kernel variable on Apple and FreeBSD. -/
inductive PidMaxSource
  | procFile (content : Option (List Char))
  | sysctl (maxProc : Option Pid)

def getPidMax : PidMaxSource → Pid
  | .procFile content =>
    match content.map (scan (parseFormat "%ld".toList)) with
    | some [.int pidMax] => toPid (toLong pidMax)
    | _ => -1
  | .sysctl maxProc => maxProc.getD (-1)

/-- What `main` takes from the system it runs on. -/
structure Host where
  ncpu : ℤ
  pidMax : PidMaxSource
  rounding : Rounding

/-- The variables that the options set. -/
structure Variables where
  exe : Option Arg := none
  perclimit : FloatValue := .finite 0
  exeOk : Bool := false
  pidOk : Bool := false
  limitOk : Bool := false
  pid : Pid := 0
  includeChildren : Bool := false
  verbose : Bool := false
  lazy : Bool := false
  deriving DecidableEq

/-- The ways in which `main` ends before it sets up its signal handlers. -/
inductive Rejection
  | missingArgument (option : Char)
  | help
  | badOption
  | aborted
  | invalidPid
  | noLimit
  | limitRange
  | targetCount
  deriving DecidableEq

/-- What `main` itself writes to the standard error, in front of the usage. -/
def Rejection.message (programPath : String) (ncpu : ℤ) : Rejection → String
  | .missingArgument option =>
    programPath ++ ": option '" ++ option.toString ++ "' requires an argument.\n"
  | .invalidPid => "Error: Invalid value for argument PID\n"
  | .noLimit => "Error: You must specify a cpu limit percentage\n"
  | .limitRange => "Error: limit must be in the range 0-" ++ toString ncpu ++ "00\n"
  | .targetCount => "Error: You must specify exactly one target process by name, pid, " ++
    "or command line\n"
  | .help | .badOption | .aborted => ""

/-- The `pid` of an argument, and whether the argument is wholly a number. -/
def readPid (arg : Arg) : Pid × Bool :=
  let (n, endptr) := strtol arg
  (toPid (toLong n), endptr ≠ arg ∧ endptr = [])

/-- The limit of an argument, and whether the argument is wholly a number. -/
def readLimit (rounding : Rounding) (arg : Arg) : FloatValue × Bool :=
  let (percent, endptr) := strtod rounding arg
  (percent, endptr ≠ arg ∧ endptr = [])

section Program

variable (host : Host)

/-- The body of the loop, for an option that was found. -/
def handleOption (v : Variables) (found : Found) : Except Rejection Variables :=
  if found.val ∈ [ 'p', 'e', 'l'] ∧ (found.optarg.getD []).head? = some '-' then
    .error (.missingArgument found.val)
  else
    match found.val, found.optarg with
    | 'p', some optarg => .ok { v with pid := (readPid optarg).1, pidOk := (readPid optarg).2 }
    | 'e', some optarg => .ok { v with exe := some optarg, exeOk := true }
    | 'l', some optarg => .ok { v with
        perclimit := (readLimit host.rounding optarg).1
        limitOk := (readLimit host.rounding optarg).2 }
    | 'v', _ => .ok { v with verbose := true }
    | 'z', _ => .ok { v with lazy := true }
    | 'i', _ => .ok { v with includeChildren := true }
    | 'h', _ => .error .help
    | _, _ => .error .aborted

/-- The loop over the options, with the variables and the operands at its end. -/
def parseOptions : ℕ → Variables → State → Option (Except Rejection (Variables × List Arg))
  | 0, _, _ => none
  | fuel + 1, v, st =>
    match getoptLong spec st with
    | .done operands => some (.ok (v, operands))
    | .unknown => some (.error .badOption)
    | .option found rest =>
      match handleOption host v found with
      | .error rejection => some (.error rejection)
      | .ok v => parseOptions fuel v rest

/-! ## Validation -/

/-- What `main` goes on with. -/
structure Settings where
  limit : FloatValue
  exe : Option Arg
  exeOk : Bool
  pidOk : Bool
  pid : Pid
  command : List Arg
  includeChildren : Bool
  verbose : Bool
  lazy : Bool
  deriving DecidableEq

/-- The checks after the loop. -/
def validate (v : Variables) (operands : List Arg) : Except Rejection Settings :=
  if v.pidOk ∧ (v.pid ≤ 1 ∨ getPidMax host.pidMax ≤ v.pid) then .error .invalidPid
  else if !v.limitOk then .error .noLimit
  else
    let limit := host.rounding.div v.perclimit 100
    if limit.lt (.finite 0) ∨ (FloatValue.finite host.ncpu).lt limit then .error .limitRange
    else
      let commandMode : Bool := operands ≠ []
      if v.exeOk.toNat + v.pidOk.toNat + commandMode.toNat ≠ 1 then .error .targetCount
      else .ok {
        limit := limit
        exe := v.exe
        exeOk := v.exeOk
        pidOk := v.pidOk
        pid := v.pid
        command := operands
        includeChildren := v.includeChildren
        verbose := v.verbose
        lazy := v.lazy || v.pid ≠ 0 }

/-- Where the scan of an argument vector begins. -/
def start (argv : List Arg) : State := ⟨[], argv.tail⟩

/-- The options in an argument vector. -/
def given (argv : List Arg) : List Found := options spec (start argv)

/-- `main` up to its validation. -/
def arguments (argv : List Arg) : Option (Except Rejection Settings) :=
  (parseOptions host ((start argv).size + 1) {} (start argv)).map fun parsed =>
    parsed.bind fun (v, operands) => validate host v operands

end Program

/-! ## The search for the target -/

inductive Search
  | notFound
  | itself
  | limits (target : Pid)
  deriving DecidableEq

/-- One turn of the last loop of `main`. -/
def Settings.search (s : Settings) (isChildOf : Pid → Pid → Bool) (killSucceeds : Pid → Bool)
    (yielded : List Process) (cpulimitPid : Pid) : Search :=
  let ret :=
    if s.pidOk then findProcessByPid killSucceeds s.pid
    else findProcessByName isChildOf killSucceeds yielded (s.exe.getD [])
  if 0 < ret then
    if ret = cpulimitPid then .itself else .limits (if s.pidOk then s.pid else ret)
  else .notFound

/-- The kinds of targets that are selected. -/
def Settings.Selects (s : Settings) : StartMode → Prop
  | .pid => s.pidOk = true
  | .exe => s.exeOk = true
  | .command => s.command ≠ []

/-- The process `n` is the one that is searched and limited. -/
def Settings.Targets (s : Settings) (n : Pid) : Prop :=
  ∀ isChildOf killSucceeds yielded cpulimitPid,
    s.search isChildOf killSucceeds yielded cpulimitPid =
      if killSucceeds n then if n = cpulimitPid then .itself else .limits n else .notFound

theorem Settings.targets_pid {s : Settings} (hok : s.pidOk = true) (hpos : 0 < s.pid) :
    s.Targets s.pid := by
  intro isChildOf killSucceeds yielded cpulimitPid
  have hneg : ¬ s.pid < 0 := not_lt.mpr hpos.le
  cases hkill : killSucceeds s.pid <;>
    simp [search, hok, findProcessByPid, hkill, hpos, hneg]

theorem Settings.Targets.eq_pid {s : Settings} {n : Pid} (h : s.Targets n) (hn : 0 < n)
    (hok : s.pidOk = true) (hpos : 0 < s.pid) : n = s.pid := by
  have hcalls := h (fun _ _ => false) (fun _ => true) [] 0
  rw [targets_pid hok hpos, if_pos rfl, if_pos rfl, if_neg hn.ne', if_neg hpos.ne'] at hcalls
  cases hcalls
  rfl

/-! ## The loop -/

section Loop

variable {host : Host}

/-- The variables hold what the last occurrences of the options so far say. -/
structure Parsed (rounding : Rounding) (found : List Found) (v : Variables) : Prop where
  pid : (v.pid, v.pidOk) = ((lastArgument 'p' found).map readPid).getD (0, false)
  exe : v.exe = lastArgument 'e' found
  exeOk : v.exeOk = (lastArgument 'e' found).isSome
  limit : (v.perclimit, v.limitOk) =
    ((lastArgument 'l' found).map (readLimit rounding)).getD (.finite 0, false)

theorem parsed_initial (rounding : Rounding) : Parsed rounding [] {} := ⟨rfl, rfl, rfl, rfl⟩

theorem Parsed.handleOption {found : List Found} {v v' : Variables} {f : Found}
    (h : Parsed host.rounding found v) (hstep : handleOption host v f = .ok v') :
    Parsed host.rounding (found ++ [f]) v' := by
  obtain ⟨val, optarg⟩ := f
  unfold Arguments.handleOption at hstep
  split_ifs at hstep
  dsimp only at hstep
  split at hstep <;> cases hstep
  all_goals
    constructor <;> simp [lastArgument_append_of_eq, lastArgument_append_of_ne, h.pid, h.exe,
      h.exeOk, h.limit]

theorem Parsed.parseOptions {fuel : ℕ} {found : List Found} {v v' : Variables} {st : State}
    {operands : List Arg} (h : Parsed host.rounding found v)
    (hrun : parseOptions host fuel v st = some (.ok (v', operands))) :
    Parsed host.rounding (found ++ options spec st) v' := by
  induction fuel generalizing found v st with
  | zero => cases hrun
  | succ fuel ih =>
    rw [Arguments.parseOptions] at hrun
    cases hcall : getoptLong spec st with
    | unknown => simp [hcall] at hrun
    | done rest =>
      simp only [hcall, Option.some.injEq, Except.ok.injEq, Prod.mk.injEq] at hrun
      rw [options_of_done hcall, List.append_nil, ← hrun.1]
      exact h
    | option f rest =>
      cases hstep : Arguments.handleOption host v f with
      | error rejection => simp [hcall, hstep] at hrun
      | ok w =>
        simp only [hcall, hstep] at hrun
        rw [options_of_option hcall, List.append_cons]
        exact ih (h.handleOption hstep) hrun

/-- The loop comes to an end. -/
theorem parseOptions_isSome {fuel : ℕ} {v : Variables} {st : State} (h : st.size < fuel) :
    (parseOptions host fuel v st).isSome := by
  induction fuel generalizing v st with
  | zero => omega
  | succ fuel ih =>
    rw [parseOptions]
    cases hcall : getoptLong spec st with
    | unknown => rfl
    | done rest => rfl
    | option f rest =>
      have hsize := getoptLong_size hcall
      cases hstep : handleOption host v f with
      | error rejection => simp [hstep]
      | ok w => simpa [hstep] using ih (by omega)

theorem arguments_isSome (argv : List Arg) : (arguments host argv).isSome := by
  rw [arguments, Option.isSome_map]
  exact parseOptions_isSome (Nat.lt_succ_self _)

/-- The options, and whether they take arguments. Both tables of `main` have the same. -/
def declared : List (Char × Bool) :=
  [('p', true), ('e', true), ('l', true), ('v', false), ('z', false), ('i', false), ('h', false)]

theorem mem_declared {found : Found} (h : spec.Declares found) :
    (found.val, found.optarg.isSome) ∈ declared := by
  rcases h with hshort | ⟨o, ho, hval, harg⟩
  · have hall : shortOptions.Forall fun c => ∀ hasArg, shortOption c shortOptions = some hasArg →
        (c, hasArg) ∈ declared := by
      decide +kernel
    exact List.forall_iff_forall_mem.mp hall _ (mem_of_shortOption hshort) _ hshort
  · have hall : longOptions.Forall fun o => (o.val, o.hasArg) ∈ declared := by decide +kernel
    rw [← hval, ← harg]
    exact List.forall_iff_forall_mem.mp hall o ho

/-- The switch knows every option, and no option lacks the argument that is looked at. -/
theorem handleOption_ne_aborted {v : Variables} {found : Found} (h : spec.Declares found) :
    handleOption host v found ≠ .error .aborted := by
  have hcases := mem_declared h
  obtain ⟨val, optarg⟩ := found
  unfold handleOption
  split_ifs
  · simp
  · cases optarg <;> simp [declared] at hcases <;>
      rcases hcases with rfl | rfl | rfl | rfl <;> simp

theorem parseOptions_ne_aborted (fuel : ℕ) (v : Variables) (st : State) :
    parseOptions host fuel v st ≠ some (.error .aborted) := by
  induction fuel generalizing v st with
  | zero => simp [parseOptions]
  | succ fuel ih =>
    rw [parseOptions]
    cases hcall : getoptLong spec st with
    | unknown => simp
    | done rest => simp
    | option f rest =>
      have hstep : handleOption host v f ≠ .error .aborted :=
        handleOption_ne_aborted (getoptLong_declares hcall)
      cases hhandle : handleOption host v f with
      | error rejection => simpa [hhandle] using hstep
      | ok w => simpa [hhandle] using ih w rest

/-- The call of `abort` is never reached. -/
theorem arguments_ne_aborted (argv : List Arg) : arguments host argv ≠ some (.error .aborted) := by
  intro h
  obtain ⟨parsed, hrun, hbind⟩ := Option.map_eq_some_iff.mp h
  cases parsed with
  | error rejection =>
    cases hbind
    exact parseOptions_ne_aborted _ _ _ hrun
  | ok result =>
    have hvalidate : validate host result.1 result.2 = .error .aborted := hbind
    simp only [validate] at hvalidate
    split_ifs at hvalidate <;> cases hvalidate

/-! ## What is accepted -/

/-- The checks that accepted variables have passed, and what they become. -/
structure Accepted (host : Host) (v : Variables) (operands : List Arg) (s : Settings) : Prop where
  limit : s.limit = host.rounding.div v.perclimit 100
  limitOk : v.limitOk = true
  limit_not_lt : s.limit.lt (.finite 0) = false
  limit_not_gt : (FloatValue.finite host.ncpu).lt s.limit = false
  pid : s.pid = v.pid
  pidOk : s.pidOk = v.pidOk
  pid_range : s.pidOk = true → 1 < s.pid ∧ s.pid < getPidMax host.pidMax
  exe : s.exe = v.exe
  exeOk : s.exeOk = v.exeOk
  command : s.command = operands
  one_mode : s.exeOk.toNat + s.pidOk.toNat + (decide (s.command ≠ [])).toNat = 1

theorem validate_ok {v : Variables} {operands : List Arg} {s : Settings}
    (h : validate host v operands = .ok s) : Accepted host v operands s := by
  simp only [validate] at h
  split_ifs at h with hpid hlimitOk hlimit hcount
  cases h
  simp only [not_and, not_or, not_le, Bool.not_eq_true, Bool.not_eq_false'] at hpid hlimitOk hlimit
  exact ⟨rfl, by simpa using hlimitOk, hlimit.1, hlimit.2, rfl, rfl, hpid, rfl, rfl, rfl,
    not_not.mp hcount⟩

theorem arguments_ok {argv : List Arg} {s : Settings} (h : arguments host argv = some (.ok s)) :
    ∃ v operands, Parsed host.rounding (given argv) v ∧ Accepted host v operands s := by
  obtain ⟨parsed, hrun, hbind⟩ := Option.map_eq_some_iff.mp h
  cases parsed with
  | error rejection => cases hbind
  | ok result =>
    obtain ⟨v, operands⟩ := result
    exact ⟨v, operands, (parsed_initial _).parseOptions hrun, validate_ok hbind⟩

theorem Accepted.existsUnique_mode {v : Variables} {operands : List Arg} {s : Settings}
    (h : Accepted host v operands s) : ∃! mode, s.Selects mode := by
  have hone := h.one_mode
  cases hexe : s.exeOk <;> cases hpid : s.pidOk <;> by_cases hcommand : s.command = [] <;>
    simp [hexe, hpid, hcommand] at hone
  · refine ⟨.command, hcommand, fun mode hmode => ?_⟩
    cases mode <;> simp_all [Settings.Selects]
  · refine ⟨.pid, hpid, fun mode hmode => ?_⟩
    cases mode <;> simp_all [Settings.Selects]
  · refine ⟨.exe, hexe, fun mode hmode => ?_⟩
    cases mode <;> simp_all [Settings.Selects]

end Loop

/-! ## What the arguments mean -/

/-- What accepted arguments should come to. -/
structure Means (host : Host) (argv : List Arg) (s : Settings) : Prop where
  limit_ge : (FloatValue.finite 0).le s.limit = true
  limit_le : s.limit.le (.finite host.ncpu) = true
  one_mode : ∃! mode, s.Selects mode
  pid : s.pidOk = true → ∃ arg ∈ lastArgument 'p' (given argv), ∃ n, Denotes arg n ∧
    s.Targets n ∧ 1 < n ∧ n < getPidMax host.pidMax

/-- The last limit is not a NaN, and the last `pid`, if it is a number, is one that
`pid_t` holds. -/
structure Representable (host : Host) (argv : List Arg) : Prop where
  limit : ∀ arg ∈ lastArgument 'l' (given argv), (strtod host.rounding arg).1 ≠ .nan
  pid : ∀ arg ∈ lastArgument 'p' (given argv), ∀ n, Denotes arg n →
    -2147483648 ≤ n ∧ n < 2147483648

section Meaning

variable {host : Host} {argv : List Arg} {v : Variables} {operands : List Arg} {s : Settings}

theorem readPid_of_denotes {arg : Arg} {n : ℤ} (h : Denotes arg n) :
    readPid arg = (toPid (toLong n), true) := by
  have hok := exists_denotes_iff.mp ⟨n, h⟩
  rw [readPid, h.strtol] at *
  simp [hok.1]

theorem Parsed.pidOk_iff {rounding : Rounding} (h : Parsed rounding (given argv) v) :
    v.pidOk = true ↔ ∃ arg ∈ lastArgument 'p' (given argv), ∃ n, Denotes arg n := by
  have hpid := congrArg Prod.snd h.pid
  cases hlast : lastArgument 'p' (given argv) with
  | none => simpa [hlast] using hpid
  | some arg =>
    simp only [hlast, Option.map_some, Option.getD_some, readPid] at hpid
    simp [hpid, exists_denotes_iff]

theorem Parsed.pid_eq {rounding : Rounding} (h : Parsed rounding (given argv) v) {arg : Arg} {n : ℤ}
    (harg : arg ∈ lastArgument 'p' (given argv)) (hn : Denotes arg n) :
    v.pid = toPid (toLong n) := by
  have hpid := congrArg Prod.fst h.pid
  rw [Option.mem_def.mp harg, Option.map_some, Option.getD_some, readPid_of_denotes hn] at hpid
  exact hpid

theorem Parsed.perclimit_eq {rounding : Rounding} (h : Parsed rounding (given argv) v)
    (hok : v.limitOk = true) :
    ∃ arg ∈ lastArgument 'l' (given argv), v.perclimit = (strtod rounding arg).1 := by
  have hlimit := h.limit
  cases hlast : lastArgument 'l' (given argv) with
  | none => simp [hlast, hok] at hlimit
  | some arg =>
    rw [hlast] at hlimit
    exact ⟨arg, rfl, congrArg Prod.fst hlimit⟩

theorem toPid_range (n : ℤ) : -2147483648 ≤ toPid n ∧ toPid n < 2147483648 := by
  have hlow := Int.le_bmod (x := n) (m := 4294967296) (by decide)
  have hhigh := Int.bmod_lt (x := n) (m := 4294967296) (by decide)
  exact ⟨by simpa [toPid] using hlow, by simpa [toPid] using hhigh⟩

/-- What is not refused is ordered, unless it is a NaN. -/
theorem Accepted.limit_ordered_iff (h : Accepted host v operands s) :
    (FloatValue.finite 0).le s.limit = true ∧ s.limit.le (.finite host.ncpu) = true ↔
      s.limit ≠ .nan := by
  simp [FloatValue.le_iff, h.limit_not_lt, h.limit_not_gt]

theorem limit_iff (hparsed : Parsed host.rounding (given argv) v)
    (h : Accepted host v operands s) : s.limit ≠ .nan ↔
      ∀ arg ∈ lastArgument 'l' (given argv), (strtod host.rounding arg).1 ≠ .nan := by
  obtain ⟨arg, harg, hvalue⟩ := hparsed.perclimit_eq h.limitOk
  rw [h.limit, Ne, host.rounding.div_eq_nan, hvalue, Option.mem_def.mp harg]
  simp

/-- The accepted `pid` is the one that was given, unless it had to be narrowed. -/
theorem pid_iff (hparsed : Parsed host.rounding (given argv) v)
    (h : Accepted host v operands s) :
    (s.pidOk = true → ∃ arg ∈ lastArgument 'p' (given argv), ∃ n, Denotes arg n ∧
        s.Targets n ∧ 1 < n ∧ n < getPidMax host.pidMax) ↔
      ∀ arg ∈ lastArgument 'p' (given argv), ∀ n, Denotes arg n →
        -2147483648 ≤ n ∧ n < 2147483648 := by
  constructor
  · intro hmeans arg harg n hn
    have hok : s.pidOk = true := by rw [h.pidOk, hparsed.pidOk_iff]; exact ⟨arg, harg, n, hn⟩
    obtain ⟨arg', harg', n', hn', htarget, hgt, -⟩ := hmeans hok
    obtain rfl : arg = arg' := Option.mem_unique harg harg'
    obtain rfl : n = n' := hn.unique hn'
    have hpos : 0 < s.pid := zero_lt_one.trans (h.pid_range hok).1
    rw [htarget.eq_pid (zero_lt_one.trans hgt) hok hpos, h.pid, hparsed.pid_eq harg hn]
    exact toPid_range _
  · intro hfits hok
    obtain ⟨arg, harg, n, hn⟩ := hparsed.pidOk_iff.mp (h.pidOk ▸ hok)
    have hpid : s.pid = n := by
      rw [h.pid, hparsed.pid_eq harg hn]
      exact toPid_toLong (hfits arg harg n hn)
    obtain ⟨hgt, hlt⟩ := h.pid_range hok
    have htarget := Settings.targets_pid hok (zero_lt_one.trans hgt)
    rw [hpid] at hgt hlt htarget
    exact ⟨arg, harg, n, hn, htarget, hgt, hlt⟩

/-- Arguments that are accepted mean what they say exactly if the limit is a number and
the `pid` fits its type. -/
theorem arguments_means_iff (h : arguments host argv = some (.ok s)) :
    Means host argv s ↔ Representable host argv := by
  obtain ⟨v, operands, hparsed, haccepted⟩ := arguments_ok h
  have hlimit := haccepted.limit_ordered_iff.trans (limit_iff hparsed haccepted)
  have hpid := pid_iff hparsed haccepted
  constructor
  · intro hmeans
    exact ⟨hlimit.mp ⟨hmeans.limit_ge, hmeans.limit_le⟩, hpid.mp hmeans.pid⟩
  · intro hfits
    obtain ⟨hge, hle⟩ := hlimit.mpr hfits.limit
    exact ⟨hge, hle, haccepted.existsUnique_mode, hpid.mpr hfits.pid⟩

/-- The limit is one that the controller can keep. -/
theorem Means.limit_finite (h : Means host argv s) :
    ∃ limit, s.limit = .finite limit ∧ 0 ≤ limit ∧ limit ≤ host.ncpu := by
  have hge := h.limit_ge
  have hle := h.limit_le
  cases hlimit : s.limit with
  | finite q =>
    rw [hlimit] at hge hle
    exact ⟨q, rfl, by simpa [FloatValue.le] using hge, by simpa [FloatValue.le] using hle⟩
  | infinite negative => cases negative <;> simp [hlimit, FloatValue.le] at hge hle
  | nan => simp [hlimit, FloatValue.le] at hge

/-- A target that the search comes to has passed the guard of `main`. -/
theorem Accepted.launch_of_search (h : Accepted host v operands s) {isChildOf : Pid → Pid → Bool}
    {killSucceeds : Pid → Bool} {yielded : List Process} {self target : Pid} (os : Os)
    (hsearch : s.search isChildOf killSucceeds yielded self = .limits target) :
    Launch os self (if s.pidOk then .pid else .exe) target := by
  cases hok : s.pidOk with
  | true =>
    obtain ⟨hgt, hlt⟩ := h.pid_range hok
    rw [Settings.targets_pid hok (zero_lt_one.trans hgt)] at hsearch
    split_ifs at hsearch with hkill hself
    cases hsearch
    exact .pid (not_or.mpr ⟨not_le.mpr hgt, not_le.mpr hlt⟩) hself
  | false =>
    simp only [Settings.search, hok, Bool.false_eq_true, if_false] at hsearch ⊢
    split_ifs at hsearch with hfound hself
    cases hsearch
    exact .exe hfound hself

end Meaning

/-! ## Arguments that are taken for others -/

/-- Four processors and the usual range of process identifiers. -/
def usualHost : Host := ⟨4, .procFile (some "32768\n".toList), .exact⟩

/-- The options given twice, in several spellings: the last ones count. -/
def spelled : List Arg :=
  ["cpulimit", "-l200", "--pid=12", "-vp", "7", "--lim", "50"].map String.toList

def spelledSettings : Settings := ⟨.finite (1 / 2), none, false, true, 7, [], false, true, true⟩

theorem representable_spelled : Representable usualHost spelled := by
  have hlimit : lastArgument 'l' (given spelled) = some "50".toList := by decide +kernel
  have hpid : lastArgument 'p' (given spelled) = some "7".toList := by decide +kernel
  have hvalue : strtod usualHost.rounding "50".toList = (.finite 50, []) := by decide +kernel
  have hscan : Denotes "7".toList 7 := by unfold Denotes; decide +kernel
  constructor
  · intro arg harg
    obtain rfl : "50".toList = arg := Option.some.inj (hlimit.symm.trans harg)
    rw [hvalue]
    simp
  · intro arg harg n hn
    obtain rfl : "7".toList = arg := Option.some.inj (hpid.symm.trans harg)
    obtain rfl : 7 = n := hscan.unique hn
    decide

/-- The process 7 gets half a processor, as these arguments say. -/
theorem arguments_means_spelled :
    arguments usualHost spelled = some (.ok spelledSettings) ∧
      Means usualHost spelled spelledSettings := by
  have haccepted : arguments usualHost spelled = some (.ok spelledSettings) := by
    decide +kernel
  exact ⟨haccepted, (arguments_means_iff haccepted).mpr representable_spelled⟩

def narrowed : List Arg := ["cpulimit", "-l", "50", "-p", "4294967303"].map String.toList

def unordered : List Arg := ["cpulimit", "-l", "nan", "-p", "7"].map String.toList

/-- The number 4294967303 is accepted for the process 7, and a NaN for a limit. -/
theorem arguments_mistaken :
    (∃ s, arguments usualHost narrowed = some (.ok s) ∧ s.Targets 7 ∧
        ¬ Means usualHost narrowed s) ∧
      ∃ s, arguments usualHost unordered = some (.ok s) ∧ s.limit = .nan ∧
        ¬ Means usualHost unordered s := by
  constructor
  · refine ⟨⟨.finite (1 / 2), none, false, true, 7, [], false, false, true⟩, by decide +kernel,
      Settings.targets_pid rfl (by decide), fun h => ?_⟩
    obtain ⟨arg, harg, n, hn, -, -, hlt⟩ := h.pid rfl
    have hlast : lastArgument 'p' (given narrowed) = some "4294967303".toList := by decide +kernel
    have hscan : Denotes "4294967303".toList 4294967303 := by unfold Denotes; decide +kernel
    have hmax : getPidMax usualHost.pidMax = 32768 := by decide +kernel
    obtain rfl : "4294967303".toList = arg := Option.some.inj (hlast.symm.trans harg)
    obtain rfl : 4294967303 = n := hscan.unique hn
    rw [hmax] at hlt
    exact absurd hlt (by decide)
  · refine ⟨⟨.nan, none, false, true, 7, [], false, false, true⟩, by decide +kernel, rfl,
      fun h => ?_⟩
    exact absurd h.limit_ge (by decide)

end CpuLimit.Arguments
