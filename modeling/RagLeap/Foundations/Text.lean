import Mathlib.Data.List.Basic
import Mathlib.Data.List.Infix
import Mathlib.Tactic.Common

/-!
# Text as lists of code points

Strings are lists of characters, so that slicing, searching and joining are list operations:
`s.take n` for a slice from the start, `t <:+: s` for "`t` occurs in `s`", `<+:` and `<:+` for
prefixes and suffixes. `Unicode` holds the parts of the character tables that no list operation
gives; results about text are stated for every such table, and `Unicode.lower_ascii` and
`Unicode.upper_ascii` say what it does on the ASCII range.
-/

namespace RagLeap

/-- A string, by its code points. -/
abbrev Str : Type := List Char

instance Str.instLawfulBEq : LawfulBEq Str := inferInstance

/-- The code points below 128. -/
def IsAscii (s : Str) : Prop := ∀ c ∈ s, c.toNat < 128

instance (s : Str) : Decidable (IsAscii s) :=
  List.decidableBAll (fun c : Char => c.toNat < 128) s

/-- The character tables: case mapping of a string and the printable characters. -/
structure Unicode where
  lower : Str → Str
  upper : Str → Str
  isPrintable : Char → Bool
  lower_ascii : ∀ s, IsAscii s → lower s = s.map Char.toLower
  upper_ascii : ∀ s, IsAscii s → upper s = s.map Char.toUpper

/-- The tables restricted to ASCII: every other character is its own lower and upper case. -/
def Unicode.ascii : Unicode where
  lower s := s.map Char.toLower
  upper s := s.map Char.toUpper
  isPrintable c := 32 ≤ c.toNat && c.toNat < 127
  lower_ascii _ _ := rfl
  upper_ascii _ _ := rfl

namespace Str

/-- White space, as `str.isspace` has it. -/
def isSpace (c : Char) : Bool :=
  let n := c.toNat
  (9 ≤ n && n ≤ 13) || (28 ≤ n && n ≤ 32) || n == 0x85 || n == 0xa0 || n == 0x1680 ||
    (0x2000 ≤ n && n ≤ 0x200a) || n == 0x2028 || n == 0x2029 || n == 0x202f || n == 0x205f ||
    n == 0x3000

/-- `s.strip()`. -/
def strip (s : Str) : Str := ((s.dropWhile isSpace).reverse.dropWhile isSpace).reverse

/-- `s.split("\n", 1)[0]`. -/
def firstLine (s : Str) : Str := s.takeWhile (· ≠ '\n')

/-- `s.split()`: the runs of other characters between white space. -/
def words (s : Str) : List Str := (s.splitOnP isSpace).filter (· ≠ [])

/-- `s.replace(old, new)` for a nonempty `old`, with the characters of an occurrence still to be
skipped. -/
def replaceFrom (old new : Str) : ℕ → Str → Str
  | _, [] => []
  | skip + 1, _ :: s => replaceFrom old new skip s
  | 0, c :: s =>
    if old <+: c :: s then new ++ replaceFrom old new (old.length - 1) s
    else c :: replaceFrom old new 0 s

/-- `s.replace(old, new)` for a nonempty `old`. -/
def replace (s old new : Str) : Str := replaceFrom old new 0 s

/-- `re.sub` with a function: `m` gives the length of the match at the head of a text, if there is
one, and what replaces it; the first argument counts characters of a match still to be skipped. -/
def subFrom (m : Str → Option (ℕ × Str)) : ℕ → Str → Str
  | _, [] => []
  | skip + 1, _ :: s => subFrom m skip s
  | 0, c :: s =>
    match m (c :: s) with
    | some (n, new) => new ++ subFrom m (n - 1) s
    | none => c :: subFrom m 0 s

/-- `s[:n]`. -/
def upTo (s : Str) (n : ℤ) : Str := if 0 ≤ n then s.take n.toNat else s.take (s.length - n.natAbs)

/-- The decimal digits of a number. -/
def ofNat (n : ℕ) : Str := (toString n).toList

/-- Cutting a text off after `n` characters, below its first line break or not, leaves the first
line of what precedes the break. -/
theorem firstLine_take_append (a b : Str) (n : ℕ) :
    firstLine ((a ++ '\n' :: b).take n) = firstLine (a.take n) := by
  induction a generalizing n with
  | nil => cases n <;> simp [firstLine]
  | cons c a ih =>
    cases n with
    | zero => rfl
    | succ n =>
      have := ih n
      simp only [firstLine, List.cons_append, List.take_succ_cons, List.takeWhile_cons] at this ⊢
      split
      · rw [this]
      · rfl

end Str

/-! ## Letter case -/

/-- Only a capital letter is changed by `Char.toLower`, to a small one. -/
theorem toLower_cases (c : Char) :
    c.toLower = c ∨ (c.toNat < 128 ∧ 97 ≤ c.toLower.toNat ∧ c.toLower.toNat ≤ 122) := by
  unfold Char.toLower
  split
  · rename_i h
    right
    simp only [Char.toNat, UInt32.le_iff_toNat_le, UInt32.toNat_add] at h ⊢
    simp at h ⊢
    omega
  · exact .inl rfl

theorem eq_of_toLower {c d : Char} (h : c.toLower = d) (hd : d.toNat < 97) : c = d := by
  rcases toLower_cases c with hc | ⟨-, hc, -⟩
  · exact hc.symm.trans h
  · rw [h] at hc
    omega

theorem ascii_of_toLower {c d : Char} (h : c.toLower = d) (hd : d.toNat < 128) : c.toNat < 128 := by
  rcases toLower_cases c with hc | ⟨hc, -⟩
  · rwa [← hc, h]
  · exact hc

end RagLeap
