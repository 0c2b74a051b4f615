import Mathlib.Data.Nat.Digits.Defs
import Mathlib.Data.Nat.Digits.Lemmas
import RagLeap.Foundations.Text

/-!
# Strings of UTF-16 code units

A string of Java is the list of its `char`s, with surrogates as they come. `firstCodePoint` is what
a regular expression takes for one character, `fold` the comparison it makes without regard to case,
and `decimal` and `parseDecimal` are `Long.toString` and `Long.parseLong`.
-/

namespace RagLeap

/-- A `char` of Java. -/
abbrev JChar : Type := Fin 0x10000

/-- A `String` of Java. -/
abbrev JStr : Type := List JChar

instance JChar.instNeZero : NeZero 0x10000 := ⟨by decide⟩

namespace JStr

/-- The code unit of a character of the Basic Multilingual Plane. -/
def jc (c : Char) : JChar := Fin.ofNat 0x10000 c.toNat

/-- A text of the code. -/
def lit (s : String) : JStr := s.toList.map jc

def isHigh (c : JChar) : Bool := 0xD800 ≤ c.val && c.val < 0xDC00

def isLow (c : JChar) : Bool := 0xDC00 ≤ c.val && c.val < 0xE000

/-- `StringBuilder.appendCodePoint(n)` -/
def ofCodePoint (n : ℕ) : JStr :=
  if n < 0x10000 then [Fin.ofNat 0x10000 n]
  else [Fin.ofNat 0x10000 (0xD800 + (n - 0x10000) / 0x400),
    Fin.ofNat 0x10000 (0xDC00 + (n - 0x10000) % 0x400)]

/-- The code units of the first code point. -/
def firstCodePoint : JStr → JStr
  | c :: d :: _ => if isHigh c && isLow d then [c, d] else [c]
  | s => s

theorem prefix_firstCodePoint (s : JStr) : firstCodePoint s <+: s := by
  unfold firstCodePoint
  split
  · split_ifs
    · exact ⟨_, rfl⟩
    · exact ⟨_, rfl⟩
  · exact List.prefix_rfl

theorem firstCodePoint_ne_nil {s : JStr} (h : s ≠ []) : firstCodePoint s ≠ [] := by
  unfold firstCodePoint
  split
  · split_ifs <;> exact List.cons_ne_nil _ _
  · exact h

theorem firstCodePoint_cons {c : JChar} (h : isHigh c = false) (s : JStr) :
    firstCodePoint (c :: s) = [c] := by
  cases s with
  | nil => rfl
  | cons d s => rw [firstCodePoint, h, Bool.false_and, if_neg Bool.false_ne_true]

/-! ## Letters and digits -/

/-- `toLowerCase(toUpperCase(c))` as far as it is ASCII: besides the capitals, four other letters
are mapped there. -/
def fold (c : JChar) : JChar :=
  if 0x41 ≤ c.val ∧ c.val ≤ 0x5A then Fin.ofNat 0x10000 (c.val + 0x20)
  else if c.val = 0x130 ∨ c.val = 0x131 then jc 'i'
  else if c.val = 0x17F then jc 's'
  else if c.val = 0x212A then jc 'k'
  else c

/-- `[a-z]` without regard to case. -/
def isLetter (c : JChar) : Bool := 0x61 ≤ (fold c).val && (fold c).val ≤ 0x7A

/-- `\d` -/
def isDigit (c : JChar) : Bool := 0x30 ≤ c.val && c.val ≤ 0x39

/-- `[0-9a-f]` without regard to case. -/
def isHexDigit (c : JChar) : Bool := isDigit c || (0x61 ≤ (fold c).val && (fold c).val ≤ 0x66)

/-- `\s` -/
def isSpace (c : JChar) : Bool := c.val = 0x20 || (9 ≤ c.val && c.val ≤ 13)

theorem isDigit_iff {c : JChar} : isDigit c = true ↔ 0x30 ≤ c.val ∧ c.val ≤ 0x39 := by
  rw [isDigit, Bool.and_eq_true, decide_eq_true_eq, decide_eq_true_eq]

/-- A letter is none of the characters that ASCII has for other purposes. -/
theorem not_isLetter_of_lt {c : JChar} (h : c.val < 0x41) : isLetter c = false := by
  have hfold : fold c = c := by
    unfold fold
    rw [if_neg (by omega), if_neg (by omega), if_neg (by omega), if_neg (by omega)]
  rw [isLetter, hfold, Bool.and_eq_false_iff, decide_eq_false_iff_not]
  exact .inl (by omega)

/-! ## Numbers -/

def digit (d : ℕ) : JChar := Fin.ofNat 0x10000 (0x30 + d)

def natText (n : ℕ) : JStr := if n = 0 then [digit 0] else ((Nat.digits 10 n).map digit).reverse

/-- The text of a number. -/
def decimal (n : ℤ) : JStr := if n < 0 then jc '-' :: natText n.natAbs else natText n.natAbs

def parseNat (s : JStr) : ℕ := Nat.ofDigits 10 (s.reverse.map fun c => c.val - 0x30)

/-- The number of a text of digits, with a sign or without one. -/
def parseDecimal : JStr → ℤ
  | [] => 0
  | c :: s => if c = jc '-' then -(parseNat s : ℤ) else parseNat (c :: s)

theorem digit_val {d : ℕ} (h : d < 10) : (digit d).val = 0x30 + d :=
  Nat.mod_eq_of_lt (by omega)

theorem natText_ne_nil (n : ℕ) : natText n ≠ [] := by
  unfold natText
  split_ifs with h
  · exact List.cons_ne_nil _ _
  · simpa [Nat.digits_eq_nil_iff_eq_zero] using h

theorem isDigit_natText (n : ℕ) : ∀ c ∈ natText n, isDigit c = true := by
  intro c hc
  unfold natText at hc
  split_ifs at hc with h
  · rw [List.mem_singleton.1 hc]
    rfl
  · obtain ⟨d, hd, rfl⟩ := List.mem_map.1 (List.mem_reverse.1 hc)
    have hlt := Nat.digits_lt_base (by decide) hd
    rw [isDigit_iff, digit_val hlt]
    omega

theorem parseNat_natText (n : ℕ) : parseNat (natText n) = n := by
  unfold parseNat natText
  split_ifs with h
  · rw [h]
    rfl
  · have hmap : ((Nat.digits 10 n).map digit).map (fun c => c.val - 0x30) = Nat.digits 10 n := by
      rw [List.map_map]
      refine (List.map_congr_left fun d hd => ?_).trans (List.map_id' _)
      rw [Function.comp_apply, digit_val (Nat.digits_lt_base (by decide) hd)]
      exact Nat.add_sub_cancel_left 0x30 d
    rw [List.reverse_reverse, hmap, Nat.ofDigits_digits]

theorem length_natText_le {n k : ℕ} (hk : 0 < k) (h : n < 10 ^ k) : (natText n).length ≤ k := by
  unfold natText
  split_ifs with h0
  · exact hk
  · rw [List.length_reverse, List.length_map]
    exact (Nat.digits_length_le_iff (by decide) n).2 h

theorem parseDecimal_natText (n : ℕ) : parseDecimal (natText n) = n := by
  obtain ⟨c, s, hs⟩ := List.exists_cons_of_ne_nil (natText_ne_nil n)
  have hne : c ≠ jc '-' := by
    rintro rfl
    have hdigit := isDigit_natText n (jc '-') (hs ▸ List.mem_cons_self)
    exact absurd hdigit (by decide)
  have hparse := parseNat_natText n
  rw [hs] at hparse
  rw [hs, parseDecimal, if_neg hne, hparse]

theorem parseDecimal_decimal (n : ℤ) : parseDecimal (decimal n) = n := by
  unfold decimal
  split_ifs with h
  · rw [parseDecimal, if_pos rfl, parseNat_natText]
    omega
  · rw [parseDecimal_natText]
    omega

end JStr

end RagLeap
