import Mathlib.Data.List.Basic

/-!
# Command-line options

The scan of `getopt_long` that stops at the first operand (a `+` in front of the
option string): clusters of short options, long options and their unambiguous
abbreviations, and arguments of options in the same or the next element. An option
that is unknown, ambiguous, without its argument or with one that it does not take
is a `?`, after which the program is not expected to go on.
-/
namespace CpuLimit.Library.Getopt

/-- An element of the argument vector. -/
abbrev Arg := List Char

/-- `struct option` with a null `flag`. -/
structure LongOption where
  name : Arg
  hasArg : Bool
  val : Char
  deriving DecidableEq

/-- The option string behind its `+`, and the long options. -/
structure Spec where
  optstring : List Char
  longOptions : List LongOption

/-- Where the scan is: the rest of a cluster that has been begun, and the elements
after it. -/
structure State where
  nextchar : List Char
  args : List Arg
  deriving DecidableEq

/-- An option that was found, with its argument. -/
structure Found where
  val : Char
  optarg : Option Arg
  deriving DecidableEq

/-- What a call returns: an option, `?`, or -1 with the operands. -/
inductive Result
  | option (found : Found) (rest : State)
  | unknown
  | done (operands : List Arg)
  deriving DecidableEq

/-- Whether a short option takes an argument. -/
def shortOption (c : Char) : List Char → Option Bool
  | [] => none
  | d :: rest =>
    if c = ':' ∨ c = ';' then none
    else if d = c then some (rest.head? = some ':')
    else shortOption c rest

/-- The long option of a name: the exact one, or the only one that begins so. Options
that differ in nothing but their names are no ambiguity. -/
def findLong (name : Arg) (longOptions : List LongOption) : Option LongOption :=
  match longOptions.find? fun o => o.name = name with
  | some o => some o
  | none =>
    match longOptions.filter fun o => name.isPrefixOf o.name with
    | [] => none
    | o :: others =>
      if others.all fun p => p.hasArg = o.hasArg && p.val = o.val then some o else none

/-- The option takes the next element as its argument. -/
def takeNext (val : Char) : List Arg → Result
  | [] => .unknown
  | arg :: args => .option ⟨val, some arg⟩ ⟨[], args⟩

section Scan

variable (spec : Spec)

/-- A short option in front of the rest of its cluster. -/
def scanShort (c : Char) (cluster : List Char) (args : List Arg) : Result :=
  match shortOption c spec.optstring with
  | none => .unknown
  | some false => .option ⟨c, none⟩ ⟨cluster, args⟩
  | some true =>
    if cluster = [] then takeNext c args else .option ⟨c, some cluster⟩ ⟨[], args⟩

/-- A long option, after its dashes. -/
def scanLong (text : Arg) (args : List Arg) : Result :=
  match findLong (text.takeWhile (· ≠ '=')) spec.longOptions with
  | none => .unknown
  | some o =>
    match text.dropWhile (· ≠ '=') with
    | _ :: value => if o.hasArg then .option ⟨o.val, some value⟩ ⟨[], args⟩ else .unknown
    | [] => if o.hasArg then takeNext o.val args else .option ⟨o.val, none⟩ ⟨[], args⟩

/-- One call of `getopt_long`. -/
def getoptLong (st : State) : Result :=
  match st.nextchar with
  | c :: cluster => scanShort spec c cluster st.args
  | [] =>
    match st.args with
    | [] => .done []
    | ['-', '-'] :: args => .done args
    | ('-' :: '-' :: text) :: args => scanLong spec text args
    | ('-' :: c :: cluster) :: args => scanShort spec c cluster args
    | operands => .done operands

/-- What is left to scan: the characters, and the ends of the elements. -/
def State.size (st : State) : ℕ := st.nextchar.length + st.args.flatten.length + st.args.length

/-- The options that the calls return, up to the first that returns none. -/
def collect : ℕ → State → List Found
  | 0, _ => []
  | fuel + 1, st =>
    match getoptLong spec st with
    | .option found rest => found :: collect fuel rest
    | .unknown | .done _ => []

/-- All options of a scan. -/
def options (st : State) : List Found := collect spec (st.size + 1) st

end Scan

/-- The argument of the last occurrence of an option. -/
def lastArgument (val : Char) (found : List Found) : Option Arg :=
  (found.filter fun f => f.val = val).getLast?.bind Found.optarg

/-- The option is in the specification, and has an argument exactly if it takes one. -/
def Spec.Declares (spec : Spec) (found : Found) : Prop :=
  shortOption found.val spec.optstring = some found.optarg.isSome ∨
    ∃ o ∈ spec.longOptions, o.val = found.val ∧ o.hasArg = found.optarg.isSome

/-! ## Progress -/

variable {spec : Spec}

theorem takeNext_size {val : Char} {args : List Arg} {found : Found} {rest : State}
    (h : takeNext val args = .option found rest) :
    rest.size + 1 ≤ args.flatten.length + args.length := by
  cases args with
  | nil => simp [takeNext] at h
  | cons arg args =>
    simp only [takeNext, Result.option.injEq] at h
    rw [← h.2]
    simp only [State.size, List.length_nil, List.flatten_cons, List.length_append, List.length_cons]
    omega

theorem scanShort_size {c : Char} {cluster : List Char} {args : List Arg} {found : Found}
    {rest : State} (h : scanShort spec c cluster args = .option found rest) :
    rest.size ≤ cluster.length + args.flatten.length + args.length := by
  unfold scanShort at h
  split at h
  · cases h
  · cases h
    exact Nat.le_refl _
  · split_ifs at h with hcluster
    · have hnext := takeNext_size h
      omega
    · cases h
      simp [State.size]

theorem scanLong_size {text : Arg} {args : List Arg} {found : Found} {rest : State}
    (h : scanLong spec text args = .option found rest) :
    rest.size ≤ args.flatten.length + args.length := by
  unfold scanLong at h
  split at h
  · cases h
  · split at h
    · split_ifs at h
      cases h
      simp [State.size]
    · split_ifs at h
      · have hnext := takeNext_size h
        omega
      · cases h
        simp [State.size]

/-- Every option that is returned has been taken from what was left. -/
theorem getoptLong_size {st : State} {found : Found} {rest : State}
    (h : getoptLong spec st = .option found rest) : rest.size < st.size := by
  unfold getoptLong at h
  unfold State.size
  split at h
  · next c cluster hnext =>
    have hsize := scanShort_size h
    rw [hnext, List.length_cons]
    unfold State.size at hsize
    omega
  · next hnext =>
    split at h
    · cases h
    · cases h
    · next text args hargs =>
      have hsize := scanLong_size h
      rw [hnext, hargs]
      unfold State.size at hsize
      simp only [List.length_nil, List.flatten_cons, List.length_append, List.length_cons]
      omega
    · next c cluster args hargs =>
      have hsize := scanShort_size h
      rw [hnext, hargs]
      unfold State.size at hsize
      simp only [List.length_nil, List.flatten_cons, List.length_append, List.length_cons]
      omega
    · cases h

/-- More calls than there is input return nothing more. -/
theorem collect_eq_options {fuel : ℕ} {st : State} (h : st.size < fuel) :
    collect spec fuel st = options spec st := by
  have hany : ∀ fuel fuel' (st : State), st.size < fuel → st.size < fuel' →
      collect spec fuel st = collect spec fuel' st := by
    intro fuel
    induction fuel with
    | zero => intro fuel' st h; omega
    | succ fuel ih =>
      intro fuel' st h h'
      obtain ⟨fuel', rfl⟩ := Nat.exists_eq_add_of_le' (Nat.one_le_of_lt h')
      rw [collect, collect]
      cases hcall : getoptLong spec st with
      | unknown => rfl
      | done operands => rfl
      | option found rest =>
        have hsize := getoptLong_size hcall
        exact congrArg (found :: ·) (ih fuel' rest (by omega) (by omega))
  exact hany fuel (st.size + 1) st h (by omega)

theorem options_of_option {st : State} {found : Found} {rest : State}
    (h : getoptLong spec st = .option found rest) :
    options spec st = found :: options spec rest := by
  rw [options, collect, h]
  exact congrArg (found :: ·) (collect_eq_options (getoptLong_size h))

theorem options_of_done {st : State} {operands : List Arg}
    (h : getoptLong spec st = .done operands) : options spec st = [] := by
  rw [options, collect, h]

/-! ## The options that are found -/

theorem mem_of_shortOption {c : Char} {hasArg : Bool} {optstring : List Char}
    (h : shortOption c optstring = some hasArg) : c ∈ optstring := by
  induction optstring with
  | nil => cases h
  | cons d rest ih =>
    rw [shortOption] at h
    split_ifs at h with hcolon hd
    · simp [hd]
    · exact List.mem_cons_of_mem d (ih h)

theorem takeNext_found {val : Char} {args : List Arg} {found : Found} {rest : State}
    (h : takeNext val args = .option found rest) :
    found.val = val ∧ found.optarg.isSome = true := by
  cases args with
  | nil => cases h
  | cons arg args =>
    cases h
    exact ⟨rfl, rfl⟩

theorem findLong_mem {name : Arg} {longOptions : List LongOption} {o : LongOption}
    (h : findLong name longOptions = some o) : o ∈ longOptions := by
  unfold findLong at h
  split at h
  · next p hexact =>
    cases h
    exact List.mem_of_find?_eq_some hexact
  · split at h
    · cases h
    · next p others hfilter =>
      split_ifs at h
      cases h
      have hmem : o ∈ longOptions.filter fun p => name.isPrefixOf p.name := by simp [hfilter]
      exact List.mem_of_mem_filter hmem

theorem scanShort_declares {c : Char} {cluster : List Char} {args : List Arg} {found : Found}
    {rest : State} (h : scanShort spec c cluster args = .option found rest) :
    spec.Declares found := by
  left
  unfold scanShort at h
  split at h
  · cases h
  · next hshort =>
    cases h
    exact hshort
  · next hshort =>
    split_ifs at h with hcluster
    · obtain ⟨hval, harg⟩ := takeNext_found h
      rw [hval, harg, hshort]
    · cases h
      exact hshort

theorem scanLong_declares {text : Arg} {args : List Arg} {found : Found} {rest : State}
    (h : scanLong spec text args = .option found rest) : spec.Declares found := by
  right
  unfold scanLong at h
  split at h
  · cases h
  · next o hfind =>
    refine ⟨o, findLong_mem hfind, ?_⟩
    split at h
    · split_ifs at h with harg
      cases h
      exact ⟨rfl, harg⟩
    · split_ifs at h with harg
      · obtain ⟨hval, hsome⟩ := takeNext_found h
        exact ⟨hval.symm, harg.trans hsome.symm⟩
      · cases h
        exact ⟨rfl, Bool.not_eq_true _ ▸ harg⟩

/-- The program need not be prepared for anything else. -/
theorem getoptLong_declares {st : State} {found : Found} {rest : State}
    (h : getoptLong spec st = .option found rest) : spec.Declares found := by
  unfold getoptLong at h
  split at h
  · exact scanShort_declares h
  · split at h
    · cases h
    · cases h
    · exact scanLong_declares h
    · exact scanShort_declares h
    · cases h

/-! ## The last occurrence -/

theorem lastArgument_append_of_eq {val : Char} (found : List Found) (optarg : Option Arg) :
    lastArgument val (found ++ [⟨val, optarg⟩]) = optarg := by
  simp [lastArgument]

theorem lastArgument_append_of_ne {val : Char} (found : List Found) {f : Found}
    (h : f.val ≠ val) : lastArgument val (found ++ [f]) = lastArgument val found := by
  simp [lastArgument, h]

end CpuLimit.Library.Getopt
