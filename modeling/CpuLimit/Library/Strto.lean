import CpuLimit.Library.Scanf

/-!
# Numbers at the start of a string

`strtol` in base 10 and `strtod` in the C locale: the value and the rest of the
string, where `endptr` points. The longest beginning that is a number counts, and
without one nothing is taken. The order of IEEE 754 on the values of `strtod` is not
total: a NaN is neither less nor greater than anything.
-/
namespace CpuLimit.Library.Scanf

/-! ## The order of floating-point values -/

namespace FloatValue

/-- The comparison `<`. -/
def lt : FloatValue → FloatValue → Bool
  | .finite a, .finite b => a < b
  | .finite _, .infinite negative => !negative
  | .infinite negative, .finite _ => negative
  | .infinite s, .infinite t => s && !t
  | _, _ => false

/-- The comparison `<=`. -/
def le : FloatValue → FloatValue → Bool
  | .finite a, .finite b => a ≤ b
  | .finite _, .infinite negative => !negative
  | .infinite negative, .finite _ => negative
  | .infinite s, .infinite t => s || !t
  | _, _ => false

/-- Between numbers, `<=` is the negation of the reverse `<`. -/
theorem le_iff {x y : FloatValue} : x.le y = true ↔ x ≠ .nan ∧ y ≠ .nan ∧ y.lt x = false := by
  cases x <;> cases y <;> simp [le, lt]
  case infinite.infinite s t => cases t <;> simp

end FloatValue

/-- How results of arithmetic become `double` values: some nearby value, or an infinity
where there is none. -/
structure Rounding where
  round : ℚ → FloatValue
  not_nan : ∀ q, round q ≠ .nan

namespace Rounding

/-- Arithmetic in which every rational is a `double`. -/
def exact : Rounding := ⟨.finite, fun _ => by simp⟩

variable (rounding : Rounding)

/-- Division by a positive finite divisor. -/
def div (v : FloatValue) (divisor : ℚ) : FloatValue :=
  match v with
  | .finite q => rounding.round (q / divisor)
  | v => v

theorem div_eq_nan {v : FloatValue} {divisor : ℚ} : rounding.div v divisor = .nan ↔ v = .nan := by
  cases v <;> simp [div, rounding.not_nan]

end Rounding

/-! ## Conversions -/

/-- `strtol` of an unbounded `long`. -/
def strtol (text : List Char) : ℤ × List Char := (scanInt text).getD (0, text)

/-- A decimal number; an exponent without digits is not part of it. -/
def longestDecimal (input : List Char) : Option (ℚ × List Char) :=
  scanDecimalFloat input <|> scanMantissa 10 Char.isDigit decimalDigit input

/-- A finite number. Where nothing of a hexadecimal one follows the "0x", there is the
number 0 in front of the "x". -/
def longestFinite : List Char → Option (ℚ × List Char)
  | '0' :: c :: rest =>
    if c.toLower = 'x' then
      scanHexFloat rest <|> scanMantissa 16 isHexDigit hexDigit rest <|> some (0, c :: rest)
    else longestDecimal ('0' :: c :: rest)
  | input => longestDecimal input

/-- `strtod`. -/
def strtod (rounding : Rounding) (text : List Char) : FloatValue × List Char :=
  let (negative, input) := scanSign (skipSpace text)
  match scanInfinity input <|> scanWord [ 'i', 'n', 'f'] input with
  | some rest => (.infinite negative, rest)
  | none =>
    match scanNan input <|> scanWord [ 'n', 'a', 'n'] input with
    | some rest => (.nan, rest)
    | none =>
      match longestFinite input with
      | some (q, rest) => (rounding.round (signed negative q), rest)
      | none => (.finite 0, text)

/-- The text is an integer from its beginning to its end. -/
def Denotes (text : List Char) (n : ℤ) : Prop := scanInt text = some (n, [])

theorem Denotes.strtol {text : List Char} {n : ℤ} (h : Denotes text n) : strtol text = (n, []) := by
  rw [Scanf.strtol, h, Option.getD_some]

theorem Denotes.unique {text : List Char} {m n : ℤ} (hm : Denotes text m) (hn : Denotes text n) :
    m = n := by
  simpa using hm.strtol.symm.trans hn.strtol

/-- The test for a text that is wholly a number: something was taken, and nothing is left. -/
theorem exists_denotes_iff {text : List Char} :
    (∃ n, Denotes text n) ↔ (strtol text).2 ≠ text ∧ (strtol text).2 = [] := by
  have hempty : scanInt [] = none := rfl
  constructor
  · rintro ⟨n, hn⟩
    rw [hn.strtol]
    refine ⟨?_, rfl⟩
    rintro rfl
    rw [Denotes, hempty] at hn
    cases hn
  · rintro ⟨hne, hend⟩
    unfold strtol at hne hend
    cases hscan : scanInt text with
    | none => simp [hscan] at hne
    | some result =>
      obtain ⟨n, rest⟩ := result
      have hrest : rest = [] := by simpa [hscan] using hend
      exact ⟨n, by rw [Denotes, hscan, hrest]⟩

end CpuLimit.Library.Scanf
