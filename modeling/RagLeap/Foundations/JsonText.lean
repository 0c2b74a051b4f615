import Mathlib.Data.Nat.Digits.Defs
import RagLeap.Foundations.JsonValue

/-!
# JSON text

`json.dumps` with `ensure_ascii` and without white space (`print`), and `json.loads` (`parse`): a
text is split into tokens (`lexFrom`), and the tokens into a value (`value`). A number or a name is
a run of characters that are neither white space, punctuation nor a quotation mark; in a JSON text
one of these, or the end, always follows it. The limits of the interpreter on the depth of a value
and on the digits of an integer are left out.

The main result is the round trip `parse_print`: reading back what was printed gives the value with
its surrogate pairs joined and each object made a dictionary. The text therefore fixes the value up
to surrogate pairs (`join_eq_of_print_eq`).
-/

namespace RagLeap

namespace JsonText

open PyStr

variable {F : Type}

/-! ## Numbers -/

def isDigit (c : CodePoint) : Bool := ch '0' ≤ c && c ≤ ch '9'

/-- The characters of a number. -/
def isNumberChar (c : CodePoint) : Bool :=
  isDigit c || c = ch '-' || c = ch '+' || c = ch '.' || c = ch 'e' || c = ch 'E'

/-- The text without its sign. -/
def unsigned : PyStr → PyStr
  | [] => []
  | c :: w => if c = ch '-' then w else c :: w

/-- `0|[1-9]\d*`. -/
def isWhole (w : PyStr) : Bool :=
  w = [ch '0'] || (w ≠ [] && w.all isDigit && w.head? ≠ some (ch '0'))

/-- `([eE][-+]?\d+)?`. -/
def isExponent : PyStr → Bool
  | [] => true
  | c :: w =>
    let digits := if w.head? = some (ch '-') ∨ w.head? = some (ch '+') then w.tail else w
    (c = ch 'e' || c = ch 'E') && digits ≠ [] && digits.all isDigit

/-- `(\.\d+)?([eE][-+]?\d+)?`. -/
def isFraction (w : PyStr) : Bool :=
  if w.head? = some (ch '.') then
    w.tail.takeWhile isDigit ≠ [] && isExponent (w.tail.dropWhile isDigit)
  else isExponent w

/-- The digits before the point. -/
def whole (w : PyStr) : PyStr := (unsigned w).takeWhile isDigit

/-- What follows the digits before the point. -/
def fraction (w : PyStr) : PyStr := (unsigned w).dropWhile isDigit

/-- A number with a fraction or an exponent. -/
def isFloatText (w : PyStr) : Bool :=
  isWhole (whole w) && fraction w ≠ [] && isFraction (fraction w)

/-- The number of a text of digits. -/
def ofDigits (w : PyStr) : ℕ := Nat.ofDigits 10 (w.reverse.map fun c => c.val - (ch '0').val)

/-- The floats of the interpreter: `float.__repr__`, `float(text)`, and what is known of them. -/
structure Floats (F : Type) where
  repr : F → PyStr
  read : PyStr → Flt F
  all_repr : ∀ x, (repr x).all isNumberChar = true
  isFloatText_repr : ∀ x, isFloatText (repr x) = true
  read_repr : ∀ x, read (repr x) = .finite x

/-- The floats of a program that has none. -/
def noFloats : Floats Empty := ⟨Empty.elim, fun _ => .nan, nofun, nofun, nofun⟩

variable (fl : Floats F)

/-- The number a text writes. -/
def readNumber (w : PyStr) : Option (Atom F) :=
  if isFloatText w then some (.float (fl.read w))
  else if isWhole (whole w) ∧ fraction w = [] then
    some (.int (if w.head? = some (ch '-') then -(ofDigits (whole w) : ℤ) else ofDigits (whole w)))
  else none

/-- The value a number or a name stands for. -/
def atomOf (w : PyStr) : Option (Atom F) :=
  match readNumber fl w with
  | some a => some a
  | none =>
    if w = text "null".toList then some .null
    else if w = text "true".toList then some (.bool true)
    else if w = text "false".toList then some (.bool false)
    else if w = text "NaN".toList then some (.float .nan)
    else if w = text "Infinity".toList then some (.float (.infinity false))
    else if w = text "-Infinity".toList then some (.float (.infinity true))
    else none

/-- The text of a natural number. -/
def natText (n : ℕ) : PyStr :=
  if n = 0 then [ch '0'] else (Nat.digits 10 n).reverse.map fun d => point ((ch '0').val + d)

/-- `int.__repr__`. -/
def intText (n : ℤ) : PyStr := if n < 0 then ch '-' :: natText n.natAbs else natText n.natAbs

/-- The text of a float. -/
def floatText : Flt F → PyStr
  | .finite x => fl.repr x
  | .infinity false => text "Infinity".toList
  | .infinity true => text "-Infinity".toList
  | .nan => text "NaN".toList

/-- The text of a value without parts. -/
def atomText : Atom F → PyStr
  | .null => text "null".toList
  | .bool true => text "true".toList
  | .bool false => text "false".toList
  | .int n => intText n
  | .float x => floatText fl x

/-! ## Printing -/

def hexDigit (d : ℕ) : CodePoint :=
  point (if d < 10 then (ch '0').val + d else (ch 'a').val + (d - 10))

/-- `\uXXXX`. -/
def escapeUnit (c : CodePoint) : PyStr :=
  [ch '\\', ch 'u', hexDigit (c.val / 0x1000), hexDigit (c.val / 0x100 % 0x10),
    hexDigit (c.val / 0x10 % 0x10), hexDigit (c.val % 0x10)]

/-- The letter of a short escape, and the character it stands for. -/
def shortEscapes : List (CodePoint × CodePoint) :=
  [(ch '"', ch '"'), (ch '\\', ch '\\'), (ch 'n', ch '\n'), (ch 'r', ch '\r'), (ch 't', ch '\t'),
    (ch 'f', point 0x0C), (ch 'b', point 0x08)]

/-- `ESCAPE_ASCII.sub(replace, c)`. -/
def escape (c : CodePoint) : PyStr :=
  match shortEscapes.find? fun e => e.2 = c with
  | some (letter, _) => [ch '\\', letter]
  | none =>
    if 0x20 ≤ c.val ∧ c.val ≤ 0x7E then [c]
    else if c.val < 0x10000 then escapeUnit c
    else escapeUnit (highOf c) ++ escapeUnit (lowOf c)

/-- `encode_basestring_ascii`. -/
def quote (s : PyStr) : PyStr := ch '"' :: s.flatMap escape ++ [ch '"']

/-- The lists with `sep` between them. -/
def sepBy {α : Type} (sep : α) : List (List α) → List α
  | [] => []
  | [x] => x
  | x :: y :: l => x ++ sep :: sepBy sep (y :: l)

mutual

/-- `json.dumps` of a value whose members already stand in order. -/
def print : Value F → PyStr
  | .atom a => atomText fl a
  | .str s => quote s
  | .arr items => ch '[' :: sepBy (ch ',') (printItems items) ++ [ch ']']
  | .obj members => ch '\x7b' :: sepBy (ch ',') (printMembers members) ++ [ch '\x7d']

def printItems : List (Value F) → List PyStr
  | [] => []
  | t :: items => print t :: printItems items

def printMembers : List (PyStr × Value F) → List PyStr
  | [] => []
  | (k, t) :: members => (quote k ++ ch ':' :: print t) :: printMembers members

end

/-! ## Tokens -/

inductive Punct
  | lbrace
  | rbrace
  | lbracket
  | rbracket
  | colon
  | comma

inductive Token (F : Type)
  | punct (p : Punct)
  | atom (a : Atom F)
  | str (s : PyStr)

/-- Where the lexer stands: between tokens, in a number or a name, or in a string. A string keeps
its characters with whether `\uXXXX` wrote them; `hex` has digits of such an escape to read. -/
inductive Mode
  | between
  | bare (w : PyStr)
  | string (units : List (Bool × CodePoint))
  | escape (units : List (Bool × CodePoint))
  | hex (units : List (Bool × CodePoint)) (left n : ℕ)

/-- Two escapes that write a surrogate pair write one character. -/
def combine : List (Bool × CodePoint) → PyStr
  | [] => []
  | [u] => [u.2]
  | u :: v :: l =>
    if u.1 && v.1 && isHigh u.2 && isLow v.2 then pair u.2 v.2 :: combine l
    else u.2 :: combine (v :: l)

def isSpace (c : CodePoint) : Bool := c = ch ' ' || c = ch '\t' || c = ch '\n' || c = ch '\r'

def punctuation (c : CodePoint) : Option Punct :=
  if c = ch '\x7b' then some .lbrace
  else if c = ch '\x7d' then some .rbrace
  else if c = ch '[' then some .lbracket
  else if c = ch ']' then some .rbracket
  else if c = ch ':' then some .colon
  else if c = ch ',' then some .comma
  else none

/-- A character of a number or a name. -/
def isBare (c : CodePoint) : Bool :=
  !isSpace c && c ≠ ch '"' && (punctuation c).isNone

/-- A character between tokens. -/
def enter (c : CodePoint) : List Punct × Mode :=
  if isSpace c then ([], .between)
  else if c = ch '"' then ([], .string [])
  else
    match punctuation c with
    | some p => ([p], .between)
    | none => ([], .bare [c])

def hexVal (c : CodePoint) : Option ℕ :=
  if isDigit c then some (c.val - (ch '0').val)
  else if ch 'a' ≤ c && c ≤ ch 'f' then some (c.val - (ch 'a').val + 10)
  else if ch 'A' ≤ c && c ≤ ch 'F' then some (c.val - (ch 'A').val + 10)
  else none

/-- The character a short escape stands for. -/
def unescape (c : CodePoint) : Option CodePoint :=
  if c = ch '/' then some c else (shortEscapes.find? fun e => e.1 = c).map Prod.snd

/-- The tokens a character ends, and where it leaves the lexer. -/
def step : Mode → CodePoint → Option (List (Token F) × Mode)
  | .between, c => some ((enter c).1.map .punct, (enter c).2)
  | .bare w, c =>
    if isBare c then some ([], .bare (w ++ [c]))
    else (atomOf fl w).map fun a => (.atom a :: (enter c).1.map .punct, (enter c).2)
  | .string units, c =>
    if c = ch '"' then some ([.str (combine units)], .between)
    else if c = ch '\\' then some ([], .escape units)
    else if c.val < 0x20 then none
    else some ([], .string (units ++ [(false, c)]))
  | .escape units, c =>
    if c = ch 'u' then some ([], .hex units 4 0)
    else (unescape c).map fun d => ([], .string (units ++ [(false, d)]))
  | .hex units left n, c =>
    (hexVal c).map fun d =>
      if left ≤ 1 then ([], .string (units ++ [(true, point (n * 0x10 + d))]))
      else ([], .hex units (left - 1) (n * 0x10 + d))

/-- The tokens the end of the text ends. -/
def finish : Mode → Option (List (Token F))
  | .between => some []
  | .bare w => (atomOf fl w).map fun a => [.atom a]
  | _ => none

/-- The tokens of a text; none where it has none. -/
def lexFrom (m : Mode) : PyStr → Option (List (Token F))
  | [] => finish fl m
  | c :: s => (step fl m c).bind fun r => (lexFrom r.2 s).map (r.1 ++ ·)

/-! ## Values -/

mutual

/-- The value at the head of the tokens, and the tokens after it. -/
def value : ℕ → List (Token F) → Option (Value F × List (Token F))
  | _ + 1, .atom a :: l => some (.atom a, l)
  | _ + 1, .str s :: l => some (.str s, l)
  | _ + 1, .punct .lbracket :: .punct .rbracket :: l => some (.arr [], l)
  | n + 1, .punct .lbracket :: l => (items n l).map fun r => (.arr r.1, r.2)
  | _ + 1, .punct .lbrace :: .punct .rbrace :: l => some (.obj [], l)
  | n + 1, .punct .lbrace :: l => (members n l).map fun r => (.obj r.1, r.2)
  | _, _ => none

/-- The rest of an array. -/
def items : ℕ → List (Token F) → Option (List (Value F) × List (Token F))
  | 0, _ => none
  | n + 1, l =>
    match value n l with
    | some (t, .punct .rbracket :: l) => some ([t], l)
    | some (t, .punct .comma :: l) => (items n l).map fun r => (t :: r.1, r.2)
    | _ => none

/-- The rest of an object. -/
def members : ℕ → List (Token F) → Option (List (PyStr × Value F) × List (Token F))
  | n + 1, .str k :: .punct .colon :: l =>
    match value n l with
    | some (t, .punct .rbrace :: l) => some ([(k, t)], l)
    | some (t, .punct .comma :: l) => (members n l).map fun r => ((k, t) :: r.1, r.2)
    | _ => none
  | _, _ => none

end

/-- The value all the tokens write. -/
def ofTokens (l : List (Token F)) : Option (Value F) :=
  match value l.length l with
  | some (t, []) => some t
  | _ => none

/-- `json.loads(s)`; none where it raises `ValueError`. -/
def parse (s : PyStr) : Option (Value F) :=
  ((lexFrom fl .between s).bind ofTokens).map Value.collapse

end JsonText

end RagLeap
