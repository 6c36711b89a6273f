import Mathlib.Data.Rat.Floor
import Mathlib.Algebra.Order.Field.Rat
import Mathlib.Tactic.Linarith
import Mathlib.Tactic.Ring
import Mathlib.Tactic.NormNum
import Mathlib.Tactic.Positivity
import Mathlib.Tactic.FieldSimp

/-!
# Time, macros and process descriptors

`util.h` and the two structures of `process_iterator.h`. A C `double` is an
exact rational throughout; the conversion of a double to an integer type
truncates toward zero, as in C. Process identifiers are unbounded integers: the
code does no arithmetic on them except the remainder of the hash function.
-/
namespace CpuLimit

/-- `pid_t`. -/
abbrev Pid := ℤ

/-- `struct process`. The command is the C string of the `command` buffer. -/
structure Process where
  pid : Pid
  ppid : Pid
  cputime : ℚ
  cpuUsage : ℚ
  command : List Char
  deriving DecidableEq

/-- `struct process_filter`. -/
structure ProcessFilter where
  pid : Pid
  includeChildren : Bool
  deriving DecidableEq, Repr

/-- `struct timespec`. -/
structure Timespec where
  tvSec : ℤ
  tvNsec : ℤ
  deriving DecidableEq, Repr

/-- The macro `MIN`. -/
def cMin (x y : ℚ) : ℚ := if x < y then x else y

/-- The macro `MAX`. -/
def cMax (x y : ℚ) : ℚ := if x > y then x else y

@[simp] theorem cMin_eq_min (x y : ℚ) : cMin x y = min x y := by
  unfold cMin
  split_ifs with h
  · exact (min_eq_left h.le).symm
  · exact (min_eq_right (not_lt.mp h)).symm

@[simp] theorem cMax_eq_max (x y : ℚ) : cMax x y = max x y := by
  unfold cMax
  split_ifs with h
  · exact (max_eq_left h.le).symm
  · exact (max_eq_right (not_lt.mp h)).symm

/-- The macro `timediff_in_ms`. -/
def timediffInMs (t1 t2 : Timespec) : ℚ :=
  ((t1.tvSec - t2.tvSec : ℤ) : ℚ) * 1000 + ((t1.tvNsec - t2.tvNsec : ℤ) : ℚ) / 1000000

/-- A clock reading on the millisecond axis. -/
def Timespec.ms (t : Timespec) : ℚ := t.tvSec * 1000 + t.tvNsec / 1000000

theorem timediffInMs_eq (t1 t2 : Timespec) : timediffInMs t1 t2 = t1.ms - t2.ms := by
  simp only [timediffInMs, Timespec.ms, Int.cast_sub]
  ring

/-- Conversion of a double to an integer type: truncation toward zero. -/
def truncate (x : ℚ) : ℤ := x.num.tdiv x.den

theorem truncate_of_nonneg {x : ℚ} (hx : 0 ≤ x) : truncate x = ⌊x⌋ := by
  rw [truncate, Int.tdiv_eq_ediv_of_nonneg (Rat.num_nonneg.mpr hx), Rat.floor_def']

/-- The macro `nsec2timespec`. -/
def nsec2timespec (nsec : ℚ) : Timespec :=
  let sec := truncate (nsec / 1000000000)
  ⟨sec, truncate (nsec - sec * 1000000000)⟩

/-- The length of a timespec in nanoseconds. -/
def Timespec.nsec (t : Timespec) : ℤ := t.tvSec * 1000000000 + t.tvNsec

/-- The seconds of a nonnegative duration leave less than one second over. -/
theorem nsec2timespec_rest {nsec : ℚ} (h : 0 ≤ nsec) :
    0 ≤ nsec - (nsec2timespec nsec).tvSec * 1000000000 ∧
      nsec - (nsec2timespec nsec).tvSec * 1000000000 < 1000000000 := by
  have hdiv : 0 ≤ nsec / 1000000000 := by positivity
  have hsec : (nsec2timespec nsec).tvSec = ⌊nsec / 1000000000⌋ := truncate_of_nonneg hdiv
  have hle := Int.floor_le (nsec / 1000000000)
  have hlt := Int.lt_floor_add_one (nsec / 1000000000)
  rw [hsec]
  constructor <;> linarith

/-- A nonnegative duration becomes a normalised timespec that is less than one
nanosecond shorter. -/
theorem nsec2timespec_spec {nsec : ℚ} (h : 0 ≤ nsec) :
    0 ≤ (nsec2timespec nsec).tvSec ∧
      0 ≤ (nsec2timespec nsec).tvNsec ∧ (nsec2timespec nsec).tvNsec < 1000000000 ∧
      ((nsec2timespec nsec).nsec : ℚ) ≤ nsec ∧ nsec < (nsec2timespec nsec).nsec + 1 := by
  obtain ⟨hrest, hlt⟩ := nsec2timespec_rest h
  have hsec : 0 ≤ (nsec2timespec nsec).tvSec := by
    have hdiv : 0 ≤ nsec / 1000000000 := by positivity
    have he : (nsec2timespec nsec).tvSec = ⌊nsec / 1000000000⌋ := truncate_of_nonneg hdiv
    rw [he]
    exact Int.floor_nonneg.mpr hdiv
  have hnsec : (nsec2timespec nsec).tvNsec =
      ⌊nsec - (nsec2timespec nsec).tvSec * 1000000000⌋ := truncate_of_nonneg hrest
  have hfl := Int.floor_le (nsec - (nsec2timespec nsec).tvSec * 1000000000)
  have hfu := Int.lt_floor_add_one (nsec - (nsec2timespec nsec).tvSec * 1000000000)
  rw [← hnsec] at hfl hfu
  refine ⟨hsec, hnsec ▸ Int.floor_nonneg.mpr hrest, ?_, ?_, ?_⟩
  · have hq : ((nsec2timespec nsec).tvNsec : ℚ) < 1000000000 := hfl.trans_lt hlt
    exact_mod_cast hq
  · simp only [Timespec.nsec, Int.cast_add, Int.cast_mul]
    push_cast
    linarith
  · simp only [Timespec.nsec, Int.cast_add, Int.cast_mul]
    push_cast
    linarith

end CpuLimit
