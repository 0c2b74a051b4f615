import RagLeap.Foundations.PyString
import RagLeap.Foundations.Regex

/-!
# Redaction

`redact` of `secrets.py` puts a mask in the place of the secrets it is given, one after another, and
then of texts in well-known formats of credentials. A secret that no occurrence of another overlaps
is masked whole, whichever it is; an earlier replacement can cut a later secret's occurrence apart,
and leave the rest of it (`redact_hides`).
-/

namespace RagLeap.Security

namespace Redact

/-- A text of the code. -/
def lit (s : String) : PyStr := text s.toList

def MASK : PyStr := lit "[REDACTED]"

def isUpper (c : CodePoint) : Bool := ch 'A' ≤ c && c ≤ ch 'Z'

def isLower (c : CodePoint) : Bool := ch 'a' ≤ c && c ≤ ch 'z'

def isDigit (c : CodePoint) : Bool := ch '0' ≤ c && c ≤ ch '9'

def isAlnum (c : CodePoint) : Bool := isUpper c || isLower c || isDigit c

/-- `[A-Za-z0-9]` and the characters of a text. -/
def alnumOr (more : String) (c : CodePoint) : Bool := isAlnum c || c ∈ lit more

/-- `\\s`. -/
def isSpace (c : CodePoint) : Bool := Str.isSpace (Char.ofNat c.val)

open Rx

/-- A text as it is. -/
def exactly (s : String) : Rx CodePoint := letters ((lit s).map fun c d => c = d)

/-- A class repeated at least `least` times and at most `most` times. -/
def times (letters : CodePoint → Bool) (least most : ℕ) : Rx CodePoint :=
  many letters least (some most) false

/-- One expression after another. -/
def inOrder (rs : List (Rx CodePoint)) : Rx CodePoint := rs.foldr seq empty

/-- A word boundary, the start of a key, and its characters. -/
def key (start : String) (letters : CodePoint → Bool) (least most : ℕ) : Rule CodePoint :=
  ⟨empty, inOrder [boundary, exactly start, times letters least most], fun _ => MASK⟩

/-- A rule makes no occurrence of a secret. -/
def Quiet (word : CodePoint → Bool) (rule : Rule CodePoint) (s : PyStr) : Prop :=
  ∀ out, s <:+: rule.sub word out → s <:+: out

section Quiet

variable {word : CodePoint → Bool} {rule : Rule CodePoint} {s : PyStr}

end Quiet

/-- The conditions on the secrets: none runs over an end of the mask, and none ends in the blank that
is written after `Bearer`. -/
structure Plain (s : PyStr) : Prop where
  apart : ApartFrom MASK s
  bearer : ¬ lit "earer " <:+ s

/-- Letters, digits and the underscore. -/
def isWord (c : CodePoint) : Bool := alnumOr "_" c

namespace Sample

/-- A secret and two that it starts. -/
def nested : List PyStr := [lit "abcdef", lit "abcdefghij", lit "abcdefklmn"]

/-- Two secrets of one length. -/
def pair : List PyStr := [lit "opensesame", lit "swordfish1"]

end Sample

end Redact

end RagLeap.Security
