import Mathlib.Data.Int.Log
import Mathlib.Data.Rat.Floor
import RagLeap.Foundations.Text

/-!
# Numbers read from text

`float(s)` and `int(x)`: the decimal texts with signs, underscores between digits, an exponent and
the names of the infinities and of NaN, their value rounded to binary64, and its integer part. An
infinity has none (`OverflowError`), a text that is no number and NaN have none either
(`ValueError`).
-/

namespace RagLeap

/-- The decimal digits outside ASCII. -/
structure DigitTable where
  digit : Char → Option (Fin 10)

/-- No digits outside ASCII. -/
def DigitTable.ascii : DigitTable := ⟨fun _ => none⟩

namespace Numeral

/-- A binary64 value; the sign of a zero is left out. -/
inductive Double
  | finite (x : ℚ)
  | infinity (negative : Bool)
  | nan
  deriving DecidableEq

/-! ## Rounding -/

/-- The nearest integer, the even one of two. -/
def roundEven (x : ℚ) : ℤ :=
  let rest := x - ⌊x⌋
  if rest < 1 / 2 then ⌊x⌋
  else if 1 / 2 < rest then ⌊x⌋ + 1
  else if ⌊x⌋ % 2 = 0 then ⌊x⌋ else ⌊x⌋ + 1

/-- The exponent of the last place of the binary64 numbers near `x`. -/
def lastPlace (x : ℚ) : ℤ := max (Int.log 2 x - 52) (-1074)

/-- The binary64 value nearest to a number of the sign. -/
def round (negative : Bool) (x : ℚ) : Double :=
  let magnitude : ℚ := roundEven (x / 2 ^ lastPlace x) * (2 : ℚ) ^ lastPlace x
  if 2 ^ 1024 ≤ magnitude then .infinity negative
  else .finite (if negative then -magnitude else magnitude)

/-! ## The grammar of `float` -/

def isDigit (c : Char) : Bool := '0' ≤ c && c ≤ '9'

def digitChar (d : Fin 10) : Char := Char.ofNat ('0'.toNat + d)

/-- White space and digits outside ASCII become a blank and ASCII digits. -/
def toAscii (table : DigitTable) (s : Str) : Str :=
  s.map fun c =>
    if c.toNat < 127 then c
    else if Str.isSpace c then ' '
    else
      match table.digit c with
      | some d => digitChar d
      | none => '?'

/-- `Py_ISSPACE`. -/
def isAsciiSpace (c : Char) : Bool := c = ' ' || (9 ≤ c.toNat && c.toNat ≤ 13)

/-- The text without the white space around it. -/
def trim (s : Str) : Str := ((s.dropWhile isAsciiSpace).reverse.dropWhile isAsciiSpace).reverse

/-- The text without its underscores, which may only stand between digits; `prev` precedes it. -/
def dropUnderscores (prev : Char) : Str → Option Str
  | [] => if prev = '_' then none else some []
  | c :: cs =>
    if c = '_' then if isDigit prev then dropUnderscores c cs else none
    else if prev = '_' ∧ ¬ isDigit c then none
    else (dropUnderscores c cs).map (c :: ·)

/-- The sign of a text and what follows it. -/
def sign : Str → Bool × Str
  | '-' :: cs => (true, cs)
  | '+' :: cs => (false, cs)
  | cs => (false, cs)

/-- The number the digits write. -/
def ofDigits (s : Str) : ℕ := s.foldl (fun n c => 10 * n + (c.toNat - '0'.toNat)) 0

/-- The exponent after the digits. -/
def exponent : Str → Option ℤ
  | [] => some 0
  | c :: cs =>
    let (negative, digits) := sign cs
    if (c = 'e' ∨ c = 'E') ∧ digits ≠ [] ∧ digits.all isDigit then
      some (if negative then -(ofDigits digits : ℤ) else ofDigits digits)
    else none

/-- The value of digits with a point and an exponent. -/
def decimal (s : Str) : Option ℚ :=
  let whole := s.takeWhile isDigit
  let rest := s.dropWhile isDigit
  let fraction := if rest.head? = some '.' then rest.tail.takeWhile isDigit else []
  let rest := if rest.head? = some '.' then rest.tail.dropWhile isDigit else rest
  if whole ++ fraction = [] then none
  else (exponent rest).map fun e =>
    (ofDigits (whole ++ fraction) : ℚ) * (10 : ℚ) ^ (e - (fraction.length : ℤ))

/-- `PyOS_string_to_double`. -/
def parse (s : Str) : Option Double :=
  let (negative, body) := sign s
  let name := body.map Char.toLower
  if name = "inf".toList ∨ name = "infinity".toList then some (.infinity negative)
  else if name = "nan".toList then some .nan
  else (decimal body).map (round negative)

/-- `float(s)`; none where it raises `ValueError`. -/
def float (table : DigitTable) (s : Str) : Option Double :=
  (dropUnderscores ' ' (trim (toAscii table s))).bind parse

/-! ## `int(float(s))` -/

/-- The exceptions of a conversion. -/
inductive Error
  | value
  | overflow
  deriving DecidableEq

/-- `int(x)`: the part before the point. -/
def Double.toInt : Double → Except Error ℤ
  | finite x => .ok (if 0 ≤ x then ⌊x⌋ else ⌈x⌉)
  | infinity _ => .error .overflow
  | nan => .error .value

/-- `int(float(s))`. -/
def number (table : DigitTable) (s : Str) : Except Error ℤ :=
  match float table s with
  | none => .error .value
  | some x => x.toInt

/-- The text denotes an infinity, by its name or as a number too large. -/
def Infinite (table : DigitTable) (s : Str) : Prop :=
  ∃ negative, float table s = some (.infinity negative)

/-- Only an infinity overflows. -/
theorem number_eq_overflow_iff {table : DigitTable} {s : Str} :
    number table s = .error .overflow ↔ Infinite table s := by
  unfold number Infinite
  cases float table s with
  | none => exact iff_of_false nofun fun ⟨_, h⟩ => nomatch h
  | some x =>
    cases x with
    | finite x => exact iff_of_false nofun fun ⟨_, h⟩ => nomatch h
    | infinity negative => exact iff_of_true rfl ⟨negative, rfl⟩
    | nan => exact iff_of_false nofun fun ⟨_, h⟩ => nomatch h

end Numeral

end RagLeap
