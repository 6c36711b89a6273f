import Mathlib.Data.List.DropRight
import Mathlib.Data.List.TakeWhile
import Mathlib.Data.Rat.Defs
import Mathlib.Algebra.Order.Field.Rat

/-!
# Formatted input

The part of `scanf` that C programs use on text records, in the C locale: white
space, literal characters, integers, floating-point numbers, single characters
and runs up to a stop character, with suppressed assignment. An input item is
the longest prefix of the input that can be continued to a matching sequence; an
item that does not match itself is a failure, which ends the scan. The result is
the list of assigned values. Integers and floating-point numbers are unbounded
and exact; their conversion to machine types is the caller's.
-/
namespace CpuLimit.Library.Scanf

/-! ## Characters and digits -/

/-- `isspace` in the C locale. -/
def isSpace (c : Char) : Bool :=
  c ∈ [ ' ', '\t', '\n', '\x0b', '\x0c', '\r']

def skipSpace (input : List Char) : List Char := input.dropWhile isSpace

/-- An optional sign; `true` is minus. -/
def scanSign : List Char → Bool × List Char
  | '-' :: rest => (true, rest)
  | '+' :: rest => (false, rest)
  | input => (false, input)

def signed {α : Type*} [Neg α] (negative : Bool) (a : α) : α := if negative then -a else a

/-- Decimal notation of an integer, as `printf` writes it. -/
def decimal (n : ℤ) : List Char :=
  if n < 0 then '-' :: Nat.toDigits 10 n.natAbs else Nat.toDigits 10 n.natAbs

/-! ## Numbers -/

/-- A floating-point value, finite ones as exact rationals. -/
inductive FloatValue
  | finite (q : ℚ)
  | infinite (negative : Bool)
  | nan
  deriving DecidableEq

/-- Addition; infinities of different signs have no sum. -/
def FloatValue.add : FloatValue → FloatValue → FloatValue
  | .finite a, .finite b => .finite (a + b)
  | .nan, _ => .nan
  | _, .nan => .nan
  | .infinite s, .infinite t => if s = t then .infinite s else .nan
  | .infinite s, .finite _ => .infinite s
  | .finite _, .infinite t => .infinite t

/-- Multiplication by a positive finite factor. -/
def FloatValue.scale (factor : ℚ) : FloatValue → FloatValue
  | .finite q => .finite (q * factor)
  | v => v

/-- A base-10 integer after optional white space and sign. -/
def scanInt (input : List Char) : Option (ℤ × List Char) :=
  let (negative, rest) := scanSign (skipSpace input)
  let digits := rest.takeWhile Char.isDigit
  if digits = [] then none
  else some (signed negative (Nat.ofDigitChars 10 digits 0 : ℤ), rest.dropWhile Char.isDigit)

/-- The digits after an optional point. -/
def scanFraction (isDigit : Char → Bool) : List Char → List Char × List Char
  | '.' :: rest => (rest.takeWhile isDigit, rest.dropWhile isDigit)
  | rest => ([], rest)

/-- Digits of base `base` around an optional point. -/
def scanMantissa (base : ℕ) (isDigit : Char → Bool) (digit : Char → ℕ) (input : List Char) :
    Option (ℚ × List Char) :=
  let whole := input.takeWhile isDigit
  let (fraction, rest) := scanFraction isDigit (input.dropWhile isDigit)
  if whole ++ fraction = [] then none
  else
    let value := (whole ++ fraction).foldl (fun n c => base * n + digit c) 0
    some (value / base ^ fraction.length, rest)

/-- An optional exponent after the given letter; once begun it needs digits. -/
def scanExponent (letter : Char) : List Char → Option (ℤ × List Char)
  | [] => some (0, [])
  | c :: rest =>
    if c.toLower = letter then
      let (negative, rest) := scanSign rest
      let digits := rest.takeWhile Char.isDigit
      if digits = [] then none
      else some (signed negative (Nat.ofDigitChars 10 digits 0 : ℤ), rest.dropWhile Char.isDigit)
    else some (0, c :: rest)

def decimalDigit (c : Char) : ℕ := c.toNat - '0'.toNat

def isHexDigit (c : Char) : Bool :=
  c.isDigit || c.toLower ∈ [ 'a', 'b', 'c', 'd', 'e', 'f']

def hexDigit (c : Char) : ℕ :=
  if c.isDigit then decimalDigit c else c.toLower.toNat - 'a'.toNat + 10

/-- The rest after a word that is matched without regard to case. -/
def scanWord (word input : List Char) : Option (List Char) :=
  if (input.take word.length).map Char.toLower = word then some (input.drop word.length) else none

/-- The rest after "inf" or "infinity". -/
def scanInfinity (input : List Char) : Option (List Char) :=
  (scanWord [ 'i', 'n', 'f'] input).bind fun rest =>
    if rest.head?.map Char.toLower = some 'i' then scanWord [ 'i', 'n', 'i', 't', 'y'] rest
    else some rest

/-- The rest after "nan" and its optional parenthesised sequence. -/
def scanNan (input : List Char) : Option (List Char) :=
  (scanWord [ 'n', 'a', 'n'] input).bind fun rest =>
    match rest with
    | '(' :: rest =>
      match rest.dropWhile fun c => c.isAlphanum || c = '_' with
      | ')' :: rest => some rest
      | _ => none
    | rest => some rest

def scanDecimalFloat (input : List Char) : Option (ℚ × List Char) :=
  (scanMantissa 10 Char.isDigit decimalDigit input).bind fun (m, rest) =>
    (scanExponent 'e' rest).map fun (e, rest) => (m * 10 ^ e, rest)

/-- A hexadecimal number, after its "0x". -/
def scanHexFloat (input : List Char) : Option (ℚ × List Char) :=
  (scanMantissa 16 isHexDigit hexDigit input).bind fun (m, rest) =>
    (scanExponent 'p' rest).map fun (e, rest) => (m * 2 ^ e, rest)

def scanFinite : List Char → Option (ℚ × List Char)
  | '0' :: c :: rest =>
    if c.toLower = 'x' then scanHexFloat rest else scanDecimalFloat ('0' :: c :: rest)
  | input => scanDecimalFloat input

/-- A floating-point number after optional white space and sign. -/
def scanFloat (input : List Char) : Option (FloatValue × List Char) :=
  let (negative, rest) := scanSign (skipSpace input)
  match rest.head?.map Char.toLower with
  | some 'i' => (scanInfinity rest).map fun rest => (.infinite negative, rest)
  | some 'n' => (scanNan rest).map fun rest => (.nan, rest)
  | _ => (scanFinite rest).map fun (q, rest) => (.finite (signed negative q), rest)

/-! ## Formats -/

inductive Conversion
  | int
  | float
  | char
  | until (stop : Char)
  deriving DecidableEq

inductive Directive
  | space
  | literal (c : Char)
  | convert (assign : Bool) (conversion : Conversion)
  deriving DecidableEq

/-- The directives of a format that uses the conversions above. -/
def parseFormat : List Char → List Directive
  | '%' :: '*' :: 'd' :: rest => .convert false .int :: parseFormat rest
  | '%' :: '*' :: 'c' :: rest => .convert false .char :: parseFormat rest
  | '%' :: '*' :: '[' :: '^' :: stop :: ']' :: rest =>
    .convert false (.until stop) :: parseFormat rest
  | '%' :: 'c' :: rest => .convert true .char :: parseFormat rest
  | '%' :: 'l' :: 'd' :: rest => .convert true .int :: parseFormat rest
  | '%' :: 'l' :: 'f' :: rest => .convert true .float :: parseFormat rest
  | c :: rest => (if isSpace c then .space else .literal c) :: parseFormat rest
  | [] => []

inductive Value
  | int (n : ℤ)
  | float (v : FloatValue)
  | char (c : Char)
  | text (s : List Char)
  deriving DecidableEq

/-- The input item of a conversion, as a value, and the rest of the input. -/
def Conversion.scan : Conversion → List Char → Option (Value × List Char)
  | .int, input => (scanInt input).map fun (n, rest) => (.int n, rest)
  | .float, input => (scanFloat input).map fun (v, rest) => (.float v, rest)
  | .char, [] => none
  | .char, c :: rest => some (.char c, rest)
  | .until stop, input =>
    if input.takeWhile (· ≠ stop) = [] then none
    else some (.text (input.takeWhile (· ≠ stop)), input.dropWhile (· ≠ stop))

/-- The assigned values, up to the first failure. -/
def scan : List Directive → List Char → List Value
  | [], _ => []
  | .space :: directives, input => scan directives (skipSpace input)
  | .literal _ :: _, [] => []
  | .literal c :: directives, d :: rest => if d = c then scan directives rest else []
  | .convert assign conversion :: directives, input =>
    match conversion.scan input with
    | none => []
    | some (v, rest) => if assign then v :: scan directives rest else scan directives rest

/-! ## What a scan makes of written numbers -/

/-- The text does not begin with a character of the class. -/
def NotHead (p : Char → Bool) (rest : List Char) : Prop := ∀ c ∈ rest.head?, p c = false

theorem notHead_cons {p : Char → Bool} {c : Char} {rest : List Char} :
    NotHead p (c :: rest) ↔ p c = false := by
  simp [NotHead]

theorem takeWhile_append_notHead {p : Char → Bool} (item rest : List Char)
    (hitem : ∀ c ∈ item, p c = true) (hrest : NotHead p rest) :
    (item ++ rest).takeWhile p = item ∧ (item ++ rest).dropWhile p = rest := by
  rw [List.takeWhile_append_of_pos hitem, List.dropWhile_append_of_pos hitem]
  cases rest with
  | nil => simp
  | cons c rest =>
    have hc : p c = false := notHead_cons.mp hrest
    simp [hc]

theorem skipSpace_of_notHead {input : List Char} (h : NotHead isSpace input) :
    skipSpace input = input :=
  (takeWhile_append_notHead [] input (by simp) h).2

theorem skipSpace_space (input : List Char) : skipSpace (' ' :: input) = skipSpace input := by
  simp [skipSpace, isSpace]

theorem mem_of_isSpace {c : Char} (h : isSpace c = true) :
    c ∈ [ ' ', '\t', '\n', '\x0b', '\x0c', '\r'] := by
  simpa [isSpace] using h

theorem isDigit_of_isSpace {c : Char} (h : isSpace c = true) : c.isDigit = false := by
  have hall : [ ' ', '\t', '\n', '\x0b', '\x0c', '\r'].Forall fun c => c.isDigit = false := by
    decide
  exact List.forall_iff_forall_mem.mp hall c (mem_of_isSpace h)

theorem isSpace_of_isDigit {c : Char} (h : c.isDigit = true) : isSpace c = false := by
  by_contra hs
  have hd := isDigit_of_isSpace (Bool.not_eq_false _ ▸ hs)
  simp [h] at hd

theorem toLower_of_isSpace {c : Char} (h : isSpace c = true) : c.toLower = c := by
  have hall : [ ' ', '\t', '\n', '\x0b', '\x0c', '\r'].Forall fun c => c.toLower = c := by decide
  exact List.forall_iff_forall_mem.mp hall c (mem_of_isSpace h)

theorem toLower_of_isDigit {c : Char} (h : c.isDigit = true) : c.toLower = c := by
  simp only [Char.isDigit, Bool.and_eq_true, decide_eq_true_eq] at h
  have hupper : ¬ ('A'.val ≤ c.val ∧ c.val ≤ 'Z'.val) := fun hu =>
    absurd (UInt32.le_trans hu.1 h.2) (by decide)
  exact dif_neg hupper

section Digits

variable (n : ℕ) {rest : List Char}

/-- Digits are a run of digits that begins with one. -/
theorem toDigits_digits : ∀ c ∈ Nat.toDigits 10 n, c.isDigit = true :=
  fun _ hc => Nat.isDigit_of_mem_toDigits (by decide) (by decide) hc

theorem exists_toDigits_eq_cons :
    ∃ d ds, Nat.toDigits 10 n = d :: ds ∧ d.isDigit = true := by
  obtain ⟨d, ds, h⟩ := List.exists_cons_of_ne_nil (Nat.toDigits_ne_nil (n := n) (b := 10))
  exact ⟨d, ds, h, toDigits_digits n d (by simp [h])⟩

theorem scanSign_of_isDigit {c : Char} {rest : List Char} (h : c.isDigit = true) :
    scanSign (c :: rest) = (false, c :: rest) := by
  unfold scanSign
  split
  · simp_all [Char.isDigit]
  · simp_all [Char.isDigit]
  · rfl

theorem skipSpace_toDigits : skipSpace (Nat.toDigits 10 n ++ rest) = Nat.toDigits 10 n ++ rest := by
  obtain ⟨d, ds, h, hd⟩ := exists_toDigits_eq_cons n
  apply skipSpace_of_notHead
  rw [h, List.cons_append, notHead_cons]
  exact isSpace_of_isDigit hd

theorem scanSign_toDigits :
    scanSign (Nat.toDigits 10 n ++ rest) = (false, Nat.toDigits 10 n ++ rest) := by
  obtain ⟨d, ds, h, hd⟩ := exists_toDigits_eq_cons n
  rw [h, List.cons_append, scanSign_of_isDigit hd]

end Digits

theorem scanInt_skipSpace (input : List Char) : scanInt (skipSpace input) = scanInt input := by
  have hskip : skipSpace (skipSpace input) = skipSpace input := List.dropWhile_idempotent _ _
  unfold scanInt
  rw [hskip]

theorem scanInt_space (input : List Char) : scanInt (' ' :: input) = scanInt input := by
  simp only [scanInt, skipSpace_space]

/-- An integer is read back, whatever follows its digits. -/
theorem scanInt_decimal (n : ℤ) {rest : List Char} (hrest : NotHead Char.isDigit rest) :
    scanInt (decimal n ++ rest) = some (n, rest) := by
  obtain ⟨htake, hdrop⟩ := takeWhile_append_notHead _ _ (toDigits_digits n.natAbs) hrest
  have hne : Nat.toDigits 10 n.natAbs ≠ [] := Nat.toDigits_ne_nil
  by_cases hn : n < 0
  · have hskip : skipSpace ('-' :: (Nat.toDigits 10 n.natAbs ++ rest)) =
        '-' :: (Nat.toDigits 10 n.natAbs ++ rest) :=
      skipSpace_of_notHead (notHead_cons.mpr (by decide))
    have hval : signed true (n.natAbs : ℤ) = n := by
      simp only [signed, if_true]
      omega
    simp only [scanInt, decimal, if_pos hn, List.cons_append, hskip, scanSign, htake, hdrop,
      if_neg hne, Nat.ofDigitChars_ten_toDigits, hval]
  · have hval : signed false (n.natAbs : ℤ) = n := by
      simp only [signed, Bool.false_eq_true, if_false]
      omega
    simp only [scanInt, decimal, if_neg hn, skipSpace_toDigits, scanSign_toDigits, htake, hdrop,
      if_neg hne, Nat.ofDigitChars_ten_toDigits, hval]

/-- No number continues with the character: it is white space, or the text ends. -/
def Ends (rest : List Char) : Prop := ∀ c ∈ rest.head?, isSpace c = true

theorem Ends.notHead_isDigit {rest : List Char} (h : Ends rest) : NotHead Char.isDigit rest :=
  fun c hc => isDigit_of_isSpace (h c hc)

theorem scanFraction_of_ends {isDigit : Char → Bool} {rest : List Char} (hrest : Ends rest) :
    scanFraction isDigit rest = ([], rest) := by
  unfold scanFraction
  split
  · exact absurd (hrest '.' (by simp)) (by decide)
  · rfl

theorem scanMantissa_toDigits (n : ℕ) {rest : List Char} (hrest : Ends rest) :
    scanMantissa 10 Char.isDigit decimalDigit (Nat.toDigits 10 n ++ rest) =
      some ((n : ℚ), rest) := by
  obtain ⟨htake, hdrop⟩ := takeWhile_append_notHead _ _ (toDigits_digits n) hrest.notHead_isDigit
  have hvalue : (Nat.toDigits 10 n).foldl (fun n c => 10 * n + decimalDigit c) 0 = n := by
    simpa [Nat.ofDigitChars_eq_foldl, decimalDigit] using Nat.ofDigitChars_ten_toDigits (n := n)
  simp [scanMantissa, htake, hdrop, scanFraction_of_ends hrest, hvalue]

theorem scanExponent_of_ends {letter : Char} (hletter : isSpace letter = false) {rest : List Char}
    (hrest : Ends rest) : scanExponent letter rest = some (0, rest) := by
  cases rest with
  | nil => rfl
  | cons c rest =>
    have hc : isSpace c = true := hrest c (by simp)
    rw [scanExponent, toLower_of_isSpace hc, if_neg]
    rintro rfl
    simp [hletter] at hc

theorem scanDecimalFloat_toDigits (n : ℕ) {rest : List Char} (hrest : Ends rest) :
    scanDecimalFloat (Nat.toDigits 10 n ++ rest) = some ((n : ℚ), rest) := by
  have he : isSpace 'e' = false := by decide
  simp [scanDecimalFloat, scanMantissa_toDigits n hrest, scanExponent_of_ends he hrest]

/-- A number written in decimal digits is not taken for a hexadecimal one. -/
theorem scanFinite_toDigits (n : ℕ) {rest : List Char} (hrest : Ends rest) :
    scanFinite (Nat.toDigits 10 n ++ rest) = some ((n : ℚ), rest) := by
  rw [← scanDecimalFloat_toDigits n hrest]
  obtain ⟨d, ds, hd, -⟩ := exists_toDigits_eq_cons n
  have hdigits := toDigits_digits n
  rw [hd] at hdigits ⊢
  have hsecond : ∀ c tail, ds ++ rest = c :: tail → c.toLower ≠ 'x' := by
    intro c tail he hx
    cases ds with
    | nil =>
      have hs : isSpace c = true := hrest c (by simpa using congrArg List.head? he)
      rw [toLower_of_isSpace hs] at hx
      exact absurd (hx ▸ hs) (by decide)
    | cons d' ds =>
      have hc : d' = c := (List.cons.inj he).1
      have hdc : c.isDigit = true := hdigits c (by simp [hc])
      rw [toLower_of_isDigit hdc] at hx
      exact absurd (hx ▸ hdc) (by decide)
  rw [List.cons_append]
  generalize ds ++ rest = tail at hsecond
  unfold scanFinite
  split
  · rename_i c tail' he
    rw [if_neg (hsecond c tail' (List.cons.inj he).2), he]
  · rfl

/-- A natural number is read back as a float when white space or the end follows. -/
theorem scanFloat_toDigits (n : ℕ) {rest : List Char} (hrest : Ends rest) :
    scanFloat (Nat.toDigits 10 n ++ rest) = some (.finite n, rest) := by
  obtain ⟨d, ds, hd, hdigit⟩ := exists_toDigits_eq_cons n
  have hhead : (Nat.toDigits 10 n ++ rest).head?.map Char.toLower = some d := by
    simp [hd, toLower_of_isDigit hdigit]
  simp only [scanFloat, skipSpace_toDigits, scanSign_toDigits, hhead]
  split
  · simp_all [Char.isDigit]
  · simp_all [Char.isDigit]
  · simp [scanFinite_toDigits n hrest, signed]

/-! ## Scans of space-separated fields -/

section Fields

variable (directives : List Directive) {rest : List Char}

theorem skipSpace_decimal (n : ℤ) : skipSpace (' ' :: (decimal n ++ rest)) = decimal n ++ rest := by
  rw [skipSpace_space]
  unfold decimal
  split_ifs
  · exact skipSpace_of_notHead (notHead_cons.mpr (by decide))
  · exact skipSpace_toDigits n.natAbs

theorem scan_int (assign : Bool) (n : ℤ) (hrest : NotHead Char.isDigit rest) :
    scan (.space :: .convert assign .int :: directives) (' ' :: (decimal n ++ rest)) =
      if assign then .int n :: scan directives rest else scan directives rest := by
  simp only [scan, skipSpace_decimal, Conversion.scan, scanInt_decimal n hrest, Option.map_some]

/-- Suppressed integers skip one field each. -/
theorem scan_ints (ns : List ℤ) (hrest : NotHead Char.isDigit rest) :
    scan (ns.flatMap (fun _ => [.space, .convert false .int]) ++ directives)
      (ns.flatMap (fun n => ' ' :: decimal n) ++ rest) = scan directives rest := by
  induction ns with
  | nil => rfl
  | cons n ns ih =>
    have hnext : NotHead Char.isDigit (ns.flatMap (fun n => ' ' :: decimal n) ++ rest) := by
      cases ns with
      | nil => exact hrest
      | cons m ns => exact notHead_cons.mpr (by decide)
    simp only [List.flatMap_cons, List.cons_append, List.append_assoc, List.nil_append]
    rw [scan_int _ false n hnext, if_neg (by decide), ih]

theorem scan_float (assign : Bool) (n : ℕ) (hrest : Ends rest) :
    scan (.space :: .convert assign .float :: directives) (' ' :: (Nat.toDigits 10 n ++ rest)) =
      if assign then .float (.finite n) :: scan directives rest else scan directives rest := by
  simp only [scan, skipSpace_space, skipSpace_toDigits, Conversion.scan, scanFloat_toDigits n hrest,
    Option.map_some]

end Fields

/-! ## Items that end before a given character -/

section Stop

variable {stop : Char} (input rest : List Char)

theorem takeWhile_append_stop {p : Char → Bool} (hp : p stop = false) :
    (input ++ stop :: rest).takeWhile p = input.takeWhile p := by
  induction input with
  | nil => simp [hp]
  | cons c input ih => simp only [List.cons_append, List.takeWhile_cons, ih]

theorem skipSpace_append_stop (hp : isSpace stop = false) :
    skipSpace (input ++ stop :: rest) = skipSpace input ++ stop :: rest := by
  induction input with
  | nil => simp [skipSpace, hp]
  | cons c input ih =>
    simp only [skipSpace, List.cons_append, List.dropWhile_cons] at ih ⊢
    split_ifs
    · exact ih
    · rfl

theorem scanSign_append (h : input ≠ []) :
    scanSign (input ++ rest) = ((scanSign input).1, (scanSign input).2 ++ rest) := by
  cases input with
  | nil => exact absurd rfl h
  | cons c input =>
    unfold scanSign
    split
    · simp_all
    · simp_all
    · rename_i hminus hplus
      split
      · simp_all
      · simp_all
      · rfl

/-- The integer at the start of a text does not depend on what stands after a
character that cannot continue it. -/
theorem scanInt_append_stop (hspace : isSpace stop = false) (hdigit : stop.isDigit = false)
    (hsign : scanSign (stop :: rest) = (false, stop :: rest)) :
    (scanInt (input ++ stop :: rest)).map Prod.fst = (scanInt input).map Prod.fst := by
  simp only [scanInt, skipSpace_append_stop input rest hspace]
  by_cases hne : skipSpace input = []
  · have hempty : scanSign [] = (false, []) := rfl
    rw [hne, List.nil_append, hsign, hempty]
    simp [hdigit]
  · rw [scanSign_append _ _ hne]
    simp only [takeWhile_append_stop _ _ hdigit]
    split_ifs <;> rfl

end Stop

end CpuLimit.Library.Scanf
