import RagLeap.Foundations.PyString

/-!
# UTF-8, written and read with replacement

`encodeUtf8` is `s.encode("utf-8")` for a string without surrogates, and `decodeReplace` is
`b.decode("utf-8", "replace")`: a byte that starts nothing, and a sequence that breaks off, each
become one replacement character, and reading goes on at the byte that broke the sequence.

Bytes cut off at a limit are read back as the characters that fit, and one replacement character
for a character that was split (`decodeReplace_take`).
-/

namespace RagLeap

namespace PyStr

/-- A surrogate, which UTF-8 does not encode. -/
def isSurrogate (c : CodePoint) : Bool := isHigh c || isLow c

/-- U+FFFD. -/
def replacement : CodePoint := point 0xFFFD

/-- The bytes of a character. -/
def encodeChar (c : CodePoint) : List UInt8 :=
  let n := c.val
  if n < 0x80 then [UInt8.ofNat n]
  else if n < 0x800 then [UInt8.ofNat (0xC0 + n / 0x40), UInt8.ofNat (0x80 + n % 0x40)]
  else if n < 0x10000 then
    [UInt8.ofNat (0xE0 + n / 0x1000), UInt8.ofNat (0x80 + n / 0x40 % 0x40),
      UInt8.ofNat (0x80 + n % 0x40)]
  else
    [UInt8.ofNat (0xF0 + n / 0x40000), UInt8.ofNat (0x80 + n / 0x1000 % 0x40),
      UInt8.ofNat (0x80 + n / 0x40 % 0x40), UInt8.ofNat (0x80 + n % 0x40)]

/-- `s.encode("utf-8")`. -/
def encodeUtf8 (s : PyStr) : List UInt8 := s.flatMap encodeChar

/-- A character that is begun: how many bytes are still to come, the bounds of the next one, and
the bits so far. -/
structure Begun where
  left : ℕ
  low : ℕ
  high : ℕ
  bits : ℕ

/-- A byte between characters. -/
def firstByte (b : ℕ) : PyStr × Option Begun :=
  if b < 0x80 then ([point b], none)
  else if 0xC2 ≤ b ∧ b ≤ 0xDF then ([], some ⟨1, 0x80, 0xBF, b - 0xC0⟩)
  else if 0xE0 ≤ b ∧ b ≤ 0xEF then
    ([], some ⟨2, if b = 0xE0 then 0xA0 else 0x80, if b = 0xED then 0x9F else 0xBF, b - 0xE0⟩)
  else if 0xF0 ≤ b ∧ b ≤ 0xF4 then
    ([], some ⟨3, if b = 0xF0 then 0x90 else 0x80, if b = 0xF4 then 0x8F else 0xBF, b - 0xF0⟩)
  else ([replacement], none)

/-- The characters of the bytes, with a character that is begun. -/
def decodeFrom : Option Begun → List UInt8 → PyStr
  | none, [] => []
  | some _, [] => [replacement]
  | none, b :: s => (firstByte b.toNat).1 ++ decodeFrom (firstByte b.toNat).2 s
  | some p, b :: s =>
    if p.low ≤ b.toNat ∧ b.toNat ≤ p.high then
      let bits := p.bits * 0x40 + b.toNat % 0x40
      if p.left ≤ 1 then point bits :: decodeFrom none s
      else decodeFrom (some ⟨p.left - 1, 0x80, 0xBF, bits⟩) s
    else replacement :: (firstByte b.toNat).1 ++ decodeFrom (firstByte b.toNat).2 s

/-- `b.decode("utf-8", "replace")`. -/
def decodeReplace (b : List UInt8) : PyStr := decodeFrom none b

/-- `b.decode("utf-8")`: the bytes are UTF-8 if writing what is read of them gives them back. -/
def decodeUtf8 (b : List UInt8) : Option PyStr :=
  if encodeUtf8 (decodeReplace b) = b then some (decodeReplace b) else none

/-! ## A character -/

theorem isSurrogate_iff {c : CodePoint} :
    isSurrogate c = true ↔ 0xD800 ≤ c.val ∧ c.val < 0xE000 := by
  simp only [isSurrogate, isHigh, isLow, Bool.or_eq_true, Bool.and_eq_true, decide_eq_true_eq]
  omega

theorem encodeChar_ne_nil (c : CodePoint) : encodeChar c ≠ [] := by
  unfold encodeChar
  dsimp only
  split_ifs <;> simp

theorem length_encodeChar_pos (c : CodePoint) : 0 < (encodeChar c).length :=
  List.length_pos_of_ne_nil (encodeChar_ne_nil c)

theorem toNat_ofNat {n : ℕ} (h : n < 0x100) : (UInt8.ofNat n).toNat = n := by
  rw [UInt8.toNat_ofNat']
  omega

theorem firstByte_ascii {b : ℕ} (h : b < 0x80) : firstByte b = ([point b], none) := by
  rw [firstByte, if_pos h]

theorem firstByte_two {b : ℕ} (h : 0xC2 ≤ b) (h' : b ≤ 0xDF) :
    firstByte b = ([], some ⟨1, 0x80, 0xBF, b - 0xC0⟩) := by
  rw [firstByte, if_neg (by omega), if_pos ⟨h, h'⟩]

theorem firstByte_three {b : ℕ} (h : 0xE0 ≤ b) (h' : b ≤ 0xEF) : firstByte b =
    ([], some ⟨2, if b = 0xE0 then 0xA0 else 0x80, if b = 0xED then 0x9F else 0xBF,
      b - 0xE0⟩) := by
  rw [firstByte, if_neg (by omega), if_neg (by omega), if_pos ⟨h, h'⟩]

theorem firstByte_four {b : ℕ} (h : 0xF0 ≤ b) (h' : b ≤ 0xF4) : firstByte b =
    ([], some ⟨3, if b = 0xF0 then 0x90 else 0x80, if b = 0xF4 then 0x8F else 0xBF,
      b - 0xF0⟩) := by
  rw [firstByte, if_neg (by omega), if_neg (by omega), if_neg (by omega), if_pos ⟨h, h'⟩]

/-- The last byte of a character. -/
theorem decodeFrom_last {p : Begun} {b : ℕ} {s : List UInt8} (hleft : p.left = 1)
    (hlow : p.low ≤ b) (hhigh : b ≤ p.high) (hb : b < 0x100) :
    decodeFrom (some p) (UInt8.ofNat b :: s) =
      point (p.bits * 0x40 + b % 0x40) :: decodeFrom none s := by
  rw [decodeFrom, toNat_ofNat hb, if_pos ⟨hlow, hhigh⟩]
  exact if_pos hleft.le

/-- A byte inside a character. -/
theorem decodeFrom_next {p : Begun} {b : ℕ} {s : List UInt8} (hleft : 1 < p.left)
    (hlow : p.low ≤ b) (hhigh : b ≤ p.high) (hb : b < 0x100) :
    decodeFrom (some p) (UInt8.ofNat b :: s) =
      decodeFrom (some ⟨p.left - 1, 0x80, 0xBF, p.bits * 0x40 + b % 0x40⟩) s := by
  rw [decodeFrom, toNat_ofNat hb, if_pos ⟨hlow, hhigh⟩]
  exact if_neg (by omega)

theorem decodeFrom_first {p : Begun} {b : ℕ} {s : List UInt8} (hb : b < 0x100)
    (h : firstByte b = ([], some p)) :
    decodeFrom none (UInt8.ofNat b :: s) = decodeFrom (some p) s := by
  rw [decodeFrom, toNat_ofNat hb, h, List.nil_append]

/-- What reading the bytes of a character does: they give the character back, and some of them
alone a replacement character. -/
theorem decodeFrom_encodeChar {c : CodePoint} (hc : isSurrogate c = false) (s : List UInt8) :
    decodeFrom none (encodeChar c ++ s) = c :: decodeFrom none s ∧
      ∀ n, 0 < n → n < (encodeChar c).length →
        decodeFrom none ((encodeChar c).take n) = [replacement] := by
  have hsur : ¬ (0xD800 ≤ c.val ∧ c.val < 0xE000) := fun h => by
    rw [isSurrogate_iff.2 h] at hc
    exact nomatch hc
  have hlt := c.isLt
  unfold encodeChar
  dsimp only
  split_ifs with h₁ h₂ h₃
  · refine ⟨?_, fun n hn hlen => ?_⟩
    · rw [List.singleton_append, decodeFrom, toNat_ofNat (by omega), firstByte_ascii h₁, val_point]
      rfl
    · rw [List.length_singleton] at hlen
      omega
  · have hfirst := firstByte_two (b := 0xC0 + c.val / 0x40) (by omega) (by omega)
    refine ⟨?_, fun n hn hlen => ?_⟩
    · rw [List.cons_append, decodeFrom_first (by omega) hfirst, List.singleton_append,
        decodeFrom_last rfl (by dsimp only; omega) (by dsimp only; omega) (by omega)]
      dsimp only
      rw [show (0xC0 + c.val / 0x40 - 0xC0) * 0x40 + (0x80 + c.val % 0x40) % 0x40 = c.val by omega,
        val_point]
    · obtain rfl : n = 1 := by
        simp only [List.length_cons, List.length_nil] at hlen
        omega
      rw [List.take_succ_cons, List.take_zero, decodeFrom_first (by omega) hfirst, decodeFrom]
  · have hfirst := firstByte_three (b := 0xE0 + c.val / 0x1000) (by omega) (by omega)
    have hlow : (if 0xE0 + c.val / 0x1000 = 0xE0 then 0xA0 else 0x80) ≤
        0x80 + c.val / 0x40 % 0x40 := by
      split_ifs <;> omega
    have hhigh : 0x80 + c.val / 0x40 % 0x40 ≤
        if 0xE0 + c.val / 0x1000 = 0xED then 0x9F else 0xBF := by
      split_ifs <;> omega
    refine ⟨?_, fun n hn hlen => ?_⟩
    · rw [List.cons_append, decodeFrom_first (by omega) hfirst, List.cons_append,
        decodeFrom_next (by dsimp only; omega) hlow hhigh (by omega), List.singleton_append,
        decodeFrom_last rfl (by dsimp only; omega) (by dsimp only; omega) (by omega)]
      dsimp only
      rw [show ((0xE0 + c.val / 0x1000 - 0xE0) * 0x40 + (0x80 + c.val / 0x40 % 0x40) % 0x40) * 0x40 +
        (0x80 + c.val % 0x40) % 0x40 = c.val by omega, val_point]
    · simp only [List.length_cons, List.length_nil] at hlen
      obtain rfl | rfl : n = 1 ∨ n = 2 := by omega
      · rw [List.take_succ_cons, List.take_zero, decodeFrom_first (by omega) hfirst, decodeFrom]
      · rw [List.take_succ_cons, List.take_succ_cons, List.take_zero,
          decodeFrom_first (by omega) hfirst,
          decodeFrom_next (by dsimp only; omega) hlow hhigh (by omega), decodeFrom]
  · have hfirst := firstByte_four (b := 0xF0 + c.val / 0x40000) (by omega) (by omega)
    have hlow : (if 0xF0 + c.val / 0x40000 = 0xF0 then 0x90 else 0x80) ≤
        0x80 + c.val / 0x1000 % 0x40 := by
      split_ifs <;> omega
    have hhigh : 0x80 + c.val / 0x1000 % 0x40 ≤
        if 0xF0 + c.val / 0x40000 = 0xF4 then 0x8F else 0xBF := by
      split_ifs <;> omega
    refine ⟨?_, fun n hn hlen => ?_⟩
    · rw [List.cons_append, decodeFrom_first (by omega) hfirst, List.cons_append,
        decodeFrom_next (by dsimp only; omega) hlow hhigh (by omega), List.cons_append,
        decodeFrom_next (by dsimp only; omega) (by dsimp only; omega) (by dsimp only; omega)
          (by omega), List.singleton_append,
        decodeFrom_last rfl (by dsimp only; omega) (by dsimp only; omega) (by omega)]
      dsimp only
      rw [show (((0xF0 + c.val / 0x40000 - 0xF0) * 0x40 + (0x80 + c.val / 0x1000 % 0x40) % 0x40) *
        0x40 + (0x80 + c.val / 0x40 % 0x40) % 0x40) * 0x40 + (0x80 + c.val % 0x40) % 0x40 = c.val
        by omega, val_point]
    · simp only [List.length_cons, List.length_nil] at hlen
      obtain rfl | rfl | rfl : n = 1 ∨ n = 2 ∨ n = 3 := by omega
      · rw [List.take_succ_cons, List.take_zero, decodeFrom_first (by omega) hfirst, decodeFrom]
      · rw [List.take_succ_cons, List.take_succ_cons, List.take_zero,
          decodeFrom_first (by omega) hfirst,
          decodeFrom_next (by dsimp only; omega) hlow hhigh (by omega), decodeFrom]
      · rw [List.take_succ_cons, List.take_succ_cons, List.take_succ_cons, List.take_zero,
          decodeFrom_first (by omega) hfirst,
          decodeFrom_next (by dsimp only; omega) hlow hhigh (by omega),
          decodeFrom_next (by dsimp only; omega) (by dsimp only; omega) (by dsimp only; omega)
            (by omega), decodeFrom]

/-- **Bytes that come later leave what is read**: up to a character that is begun, the characters of
the first bytes are there for good. -/
theorem decodeFrom_append (p : Option Begun) (a : List UInt8) :
    ∃ (s : PyStr) (q : Option Begun), ∀ b, decodeFrom p (a ++ b) = s ++ decodeFrom q b := by
  induction a generalizing p with
  | nil => exact ⟨[], p, fun b => rfl⟩
  | cons c a ih =>
    obtain _ | p := p
    · obtain ⟨s, q, h⟩ := ih (firstByte c.toNat).2
      refine ⟨(firstByte c.toNat).1 ++ s, q, fun b => ?_⟩
      rw [List.cons_append, decodeFrom, h, List.append_assoc]
    · by_cases hin : p.low ≤ c.toNat ∧ c.toNat ≤ p.high
      · by_cases hleft : p.left ≤ 1
        · obtain ⟨s, q, h⟩ := ih none
          refine ⟨point (p.bits * 0x40 + c.toNat % 0x40) :: s, q, fun b => ?_⟩
          rw [List.cons_append, decodeFrom, if_pos hin, if_pos hleft, h, List.cons_append]
        · obtain ⟨s, q, h⟩ := ih (some ⟨p.left - 1, 0x80, 0xBF, p.bits * 0x40 + c.toNat % 0x40⟩)
          refine ⟨s, q, fun b => ?_⟩
          rw [List.cons_append, decodeFrom, if_pos hin, if_neg hleft, h]
      · obtain ⟨s, q, h⟩ := ih (firstByte c.toNat).2
        refine ⟨replacement :: (firstByte c.toNat).1 ++ s, q, fun b => ?_⟩
        rw [List.cons_append, decodeFrom, if_neg hin, h, List.append_assoc]

/-! ## A text cut off -/

/-- The characters whose bytes fit into `n`, with a replacement character for one that is split. -/
def cut : ℕ → PyStr → PyStr
  | _, [] => []
  | n, c :: s =>
    if (encodeChar c).length ≤ n then c :: cut (n - (encodeChar c).length) s
    else if n = 0 then [] else [replacement]

/-- **Bytes cut off at a limit** are read back as the characters that fit. -/
theorem decodeReplace_take {s : PyStr} (hs : ∀ c ∈ s, isSurrogate c = false) (n : ℕ) :
    decodeReplace ((encodeUtf8 s).take n) = cut n s := by
  rw [decodeReplace, encodeUtf8]
  induction s generalizing n with
  | nil => simp [decodeFrom, cut]
  | cons c s ih =>
    have hc := hs c List.mem_cons_self
    rw [List.flatMap_cons, List.take_append, cut]
    split_ifs with hfits hzero
    · rw [List.take_of_length_le hfits, (decodeFrom_encodeChar hc _).1,
        ih fun d hd => hs d (List.mem_cons_of_mem c hd)]
    · simp [hzero, decodeFrom]
    · have hrest : n - (encodeChar c).length = 0 := by omega
      rw [hrest, List.take_zero, List.append_nil]
      exact (decodeFrom_encodeChar hc []).2 n (by omega) (by omega)

/-- A text that fits is read back whole; one that does not, as a proper prefix of it with at most
a replacement character after it. -/
theorem cut_cases (n : ℕ) (s : PyStr) :
    (encodeUtf8 s).length ≤ n ∧ cut n s = s ∨
      n < (encodeUtf8 s).length ∧ ∃ p q, s = p ++ q ∧ q ≠ [] ∧
        (cut n s = p ∨ cut n s = p ++ [replacement]) := by
  induction s generalizing n with
  | nil => exact .inl ⟨Nat.zero_le n, rfl⟩
  | cons c s ih =>
    rw [cut, encodeUtf8, List.flatMap_cons, List.length_append]
    split_ifs with hfits hzero
    · rcases ih (n - (encodeChar c).length) with ⟨hlen, hcut⟩ | ⟨hlen, p, q, hs, hq, hcut⟩
      · rw [encodeUtf8] at hlen
        exact .inl ⟨by omega, by rw [hcut]⟩
      · rw [encodeUtf8] at hlen
        refine .inr ⟨by omega, c :: p, q, by rw [hs, List.cons_append], hq, ?_⟩
        rcases hcut with hcut | hcut
        · exact .inl (by rw [hcut])
        · exact .inr (by rw [hcut, List.cons_append])
    · exact .inr ⟨by omega, [], c :: s, rfl, List.cons_ne_nil c s, .inl rfl⟩
    · exact .inr ⟨by omega, [], c :: s, rfl, List.cons_ne_nil c s, .inr rfl⟩

/-! ## Texts -/

theorem decodeUtf8_encodeUtf8 {s : PyStr} (hs : ∀ c ∈ s, isSurrogate c = false) :
    decodeUtf8 (encodeUtf8 s) = some s := by
  have hread : decodeReplace (encodeUtf8 s) = s := by
    have htake := decodeReplace_take hs (encodeUtf8 s).length
    rw [List.take_length] at htake
    rw [htake]
    rcases cut_cases (encodeUtf8 s).length s with ⟨-, hcut⟩ | ⟨hlt, -⟩
    · exact hcut
    · exact absurd hlt (Nat.lt_irrefl _)
  rw [decodeUtf8, hread, if_pos rfl]

theorem isSurrogate_ch (c : Char) : isSurrogate (ch c) = false := by
  rw [Bool.eq_false_iff, Ne, isSurrogate_iff]
  rintro ⟨hlow, hhigh⟩
  have hvalid : c.toNat < 0xD800 ∨ 0xDFFF < c.toNat ∧ c.toNat < 0x110000 := c.valid
  have hval : (ch c).val = c.toNat := rfl
  omega

end PyStr

end RagLeap
